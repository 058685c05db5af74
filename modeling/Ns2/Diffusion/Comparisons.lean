import Ns2.Diffusion.Matching.Correctness

/-
  How the comparisons of attributes agree with each other.

  Three of the six comparisons are computed from the values,
  the other three are their negations. On integers they are
  those of one total order. `isGT` holds of any two different
  strings, since the sign of `strncmp` is not looked at, and
  `isGE` holds of a blob and the ones it is a prefix of, since
  the lengths are not.

  Main declarations:
    * `NRAttribute.Lawful`
    * `NRValue.Conflict`

  Correctness is proven by:
    * `NRAttribute.comparisons_lawful_iff`
-/

------------------------------------------------------------
-- Laws
------------------------------------------------------------

namespace Ns2

namespace NRAttribute

/- The comparisons of two attributes all have a result, and
   are those of one total order. -/
structure Lawful (a b : NRAttribute) : Prop where
  one :
    [a.isLT b, a.isEQ b, a.isGT b].Perm
      [some true, some false, some false]
  ge :
    a.isGE b = some true ↔
      a.isGT b = some true ∨ a.isEQ b = some true
  le :
    a.isLE b = some true ↔
      a.isLT b = some true ∨ a.isEQ b = some true
  swap :
    a.isGT b = some true ↔ b.isLT a = some true

/- Integers, strings and blobs. -/
def Discrete (a : NRAttribute) : Prop :=
  a.getType = NRValue.INT32_TYPE ∨
    a.getType = NRValue.STRING_TYPE ∨
    a.getType = NRValue.BLOB_TYPE

end NRAttribute

namespace NRValue

/- The values that are compared wrongly. -/
def Conflict : NRValue → NRValue → Prop
| STRING s, STRING t => s.chars < t.chars
| BLOB s, BLOB t =>
    s.bytes ≠ t.bytes ∧
      (s.bytes <+: t.bytes ∨ t.bytes <+: s.bytes)
| _, _ => False

end NRValue

end Ns2

------------------------------------------------------------
-- Four Answers
------------------------------------------------------------

namespace Ns2

theorem DecidesWhen.decides
    {result : Option Bool}
    {promised P : Prop}
    (hDecides : DecidesWhen result promised P)
    (hPromised : promised) : Decides result P := by
  rcases hDecides with ⟨answer, hResult, hIff⟩
  exact ⟨answer, hResult, hIff hPromised⟩

namespace NRAttribute

variable {a b : NRAttribute}
variable {E G H H' : Prop}

/- All answers that are possible. -/
theorem lawful_answers :
    ∀ e g h h' : Bool,
      ([some !h, some e, some g].Perm
          [some true, some false, some false] ∧
        (some h = some true ↔
          some g = some true ∨ some e = some true) ∧
        (some (!g) = some true ↔
          some (!h) = some true ∨ some e = some true) ∧
        (some g = some true ↔ some (!h') = some true)) ↔
      (h = true ↔ g = true ∨ e = true) ∧
        ¬ (g = true ∧ e = true) ∧
        (g = true ↔ ¬ h' = true) := by
  intro e g h h'
  cases e <;> cases g <;> cases h <;> cases h' <;> decide

/- The laws in terms of what is computed from the values. -/
theorem lawful_iff
    (hEQ : Decides (a.isEQ b) E)
    (hGT : Decides (a.isGT b) G)
    (hGE : Decides (a.isGE b) H)
    (hBack : Decides (b.isGE a) H') :
    a.Lawful b ↔ (H ↔ G ∨ E) ∧ ¬ (G ∧ E) ∧ (G ↔ ¬ H') := by
  rcases hEQ with ⟨e, hEQ, hE⟩
  rcases hGT with ⟨g, hGT, hG⟩
  rcases hGE with ⟨h, hGE, hH⟩
  rcases hBack with ⟨h', hBack, hH'⟩
  have hLT : a.isLT b = some !h := congrArg _ hGE
  have hLE : a.isLE b = some !g := congrArg _ hGT
  have hSwap : b.isLT a = some !h' := congrArg _ hBack
  rw [← hE, ← hG, ← hH, ← hH', ← lawful_answers]
  rw [← hEQ, ← hGT, ← hGE, ← hLT, ← hLE, ← hSwap]
  constructor
  · exact fun hLawful => ⟨hLawful.one, hLawful.ge, hLawful.le,
      hLawful.swap⟩
  · exact fun hAll => ⟨hAll.1, hAll.2.1, hAll.2.2.1,
      hAll.2.2.2⟩

end NRAttribute

end Ns2

------------------------------------------------------------
-- Strings and Blobs
------------------------------------------------------------

namespace Ns2

namespace NRValue

theorem int_of_type
    {v : NRValue}
    (hType : v.type_ = INT32_TYPE) :
    ∃ val, v = INT32 val := by
  cases v with
  | INT32 val => exact ⟨val, rfl⟩
  | FLOAT32 | FLOAT64 | STRING | BLOB =>
      exact absurd hType (by simp [type_, INT32_TYPE,
        FLOAT32_TYPE, FLOAT64_TYPE, STRING_TYPE, BLOB_TYPE])

theorem string_of_type
    {v : NRValue}
    (hType : v.type_ = STRING_TYPE) :
    ∃ val, v = STRING val := by
  cases v with
  | STRING val => exact ⟨val, rfl⟩
  | INT32 | FLOAT32 | FLOAT64 | BLOB =>
      exact absurd hType (by simp [type_, INT32_TYPE,
        FLOAT32_TYPE, FLOAT64_TYPE, STRING_TYPE, BLOB_TYPE])

theorem blob_of_type
    {v : NRValue}
    (hType : v.type_ = BLOB_TYPE) :
    ∃ val, v = BLOB val := by
  cases v with
  | BLOB val => exact ⟨val, rfl⟩
  | INT32 | FLOAT32 | FLOAT64 | STRING =>
      exact absurd hType (by simp [type_, INT32_TYPE,
        FLOAT32_TYPE, FLOAT64_TYPE, STRING_TYPE, BLOB_TYPE])

theorem int_not_string
    (v : BitVec 32) : (INT32 v).type_ ≠ STRING_TYPE := by
  simp [type_, INT32_TYPE, STRING_TYPE]

theorem int_not_blob
    (v : BitVec 32) : (INT32 v).type_ ≠ BLOB_TYPE := by
  simp [type_, INT32_TYPE, BLOB_TYPE]

theorem blob_not_string
    (s : Blob) : (BLOB s).type_ ≠ STRING_TYPE := by
  simp [type_, STRING_TYPE, BLOB_TYPE]

theorem string_not_blob
    (s : CString) : (STRING s).type_ ≠ BLOB_TYPE := by
  simp [type_, STRING_TYPE, BLOB_TYPE]

/- A `strncmp` that is not zero is taken to be above. -/
theorem isGT_string
    (s t : CString) :
    Decides ((STRING s).isGT (STRING t))
      (s.chars ≠ t.chars) := by
  refine decides_decide (not_congr ?_)
  have hMin : s.bytes.length ≤
        min s.bytes.length t.bytes.length ∨
      t.bytes.length ≤
        min s.bytes.length t.bytes.length := by
    omega
  rw [strncmp_eq_strcmp hMin]
  exact (CString.strcmp_spec s t).2

theorem memcmp_prefix
    {s t : List Byte}
    {n : Nat}
    (hMin : min s.length t.length = n) :
    memcmp n s t = 0 ↔ s <+: t ∨ t <+: s := by
  induction n generalizing s t with
  | zero =>
      cases s with
      | nil => simp [memcmp]
      | cons a rest =>
          cases t with
          | nil => simp [memcmp]
          | cons b rest' => simp at hMin
  | succ n ih =>
      cases s with
      | nil => simp at hMin
      | cons a rest =>
          cases t with
          | nil => simp at hMin
          | cons b rest' =>
              have hRest : min rest.length rest'.length = n := by
                simp at hMin
                omega
              rw [List.cons_prefix_cons, List.cons_prefix_cons]
              by_cases hSame : a = b
              · subst hSame
                simp only [memcmp, if_true, true_and]
                exact ih hRest
              · have hBack : b ≠ a := fun h => hSame h.symm
                simp only [memcmp, hSame, hBack, if_false,
                  false_and, or_false, iff_false]
                exact byte_sub_ne_zero hSame

theorem prefix_not_gt
    {s t : List Byte}
    (hPrefix : s <+: t) : ¬ t < s :=
  hPrefix.le

theorem bytes_irrefl
    {s : List Byte} : ¬ s < s :=
  prefix_not_gt (List.prefix_refl s)

/- `memcmp` is not negative for later blobs and prefixes. -/
theorem isGE_blob
    (s t : Blob) :
    Decides ((BLOB s).isGE (BLOB t))
      (t.bytes < s.bytes ∨ s.bytes <+: t.bytes) := by
  refine decides_decide ?_
  have hLater := blob_later (s := s.bytes) (t := t.bytes) rfl
  have hPrefix :=
    memcmp_prefix (s := s.bytes) (t := t.bytes) rfl
  constructor
  · intro hCmp
    rcases lt_or_eq_of_le hCmp with hAbove | hZero
    · exact Or.inl (hLater.mpr (Or.inl hAbove))
    · rcases hPrefix.mp hZero.symm with hShort | hLong
      · exact Or.inr hShort
      · by_cases hMore : s.bytes.length > t.bytes.length
        · exact Or.inl
            (hLater.mpr (Or.inr ⟨hZero.symm, hMore⟩))
        · have hSame :=
            hLong.eq_of_length_le (Nat.le_of_not_lt hMore)
          exact Or.inr (hSame ▸ List.prefix_refl _)
  · rintro (hAbove | hShort)
    · rcases hLater.mp hAbove with hPos | hZero
      · exact hPos.le
      · exact hZero.1.ge
    · exact (hPrefix.mpr (Or.inl hShort)).ge

end NRValue

end Ns2

------------------------------------------------------------
-- Which Values Are Compared Rightly
------------------------------------------------------------

namespace Ns2

namespace NRAttribute

variable {a b c : NRAttribute}

/- Two attributes of one key are compared by their values. -/
theorem lawful_values
    {E G H H' : Prop}
    (hKey : a.getKey = b.getKey)
    (hType : a.getType = b.getType)
    (hEQ : Decides (a.val_.isEQ b.val_) E)
    (hGT : Decides (a.val_.isGT b.val_) G)
    (hGE : Decides (a.val_.isGE b.val_) H)
    (hBack : Decides (b.val_.isGE a.val_) H') :
    a.Lawful b ↔ (H ↔ G ∨ E) ∧ ¬ (G ∧ E) ∧ (G ↔ ¬ H') := by
  have hHere : ∀ test : NRValue → NRValue → Option Bool,
      a.compare b test = test a.val_ b.val_ :=
    fun _ => compare_same hKey hType
  refine lawful_iff ?_ ?_ ?_ ?_
  · rw [isEQ, hHere]
    exact hEQ
  · rw [isGT, hHere]
    exact hGT
  · rw [isGE, hHere]
    exact hGE
  · rw [isGE, compare_same hKey.symm hType.symm]
    exact hBack

theorem lawful_int
    {v w : BitVec 32}
    (hKey : a.getKey = b.getKey)
    (ha : a.val_ = .INT32 v)
    (hb : b.val_ = .INT32 w) : a.Lawful b := by
  have hType : a.getType = b.getType := by
    rw [getType, ha, getType, hb]
    rfl
  have hEQ := NRValue.isEQ_spec (v := a.val_) (w := b.val_) hType
  have hGT := (NRValue.isGT_spec hType).decides
    (ha ▸ NRValue.int_not_string v)
  have hGE := (NRValue.isGE_spec hType).decides
    (ha ▸ NRValue.int_not_blob v)
  have hBack := (NRValue.isGE_spec hType.symm).decides
    (hb ▸ NRValue.int_not_blob w)
  rw [lawful_values hKey hType hEQ hGT hGE hBack, ha, hb]
  change (w.toInt < v.toInt ∨ v = w ↔
      w.toInt < v.toInt ∨ v = w) ∧
    ¬ (w.toInt < v.toInt ∧ v = w) ∧
      (w.toInt < v.toInt ↔ ¬ (v.toInt < w.toInt ∨ w = v))
  rw [← BitVec.toInt_inj, ← BitVec.toInt_inj]
  omega

theorem lawful_string
    {s t : CString}
    (hKey : a.getKey = b.getKey)
    (ha : a.val_ = .STRING s)
    (hb : b.val_ = .STRING t) :
    a.Lawful b ↔ ¬ s.chars < t.chars := by
  have hType : a.getType = b.getType := by
    rw [getType, ha, getType, hb]
    rfl
  have hEQ := NRValue.isEQ_spec (v := a.val_) (w := b.val_) hType
  have hGE := (NRValue.isGE_spec hType).decides
    (ha ▸ NRValue.string_not_blob s)
  have hBack := (NRValue.isGE_spec hType.symm).decides
    (hb ▸ NRValue.string_not_blob t)
  have hGT := NRValue.isGT_string s t
  rw [← ha, ← hb] at hGT
  rw [lawful_values hKey hType hEQ hGT hGE hBack, ha, hb]
  change (t.chars < s.chars ∨ s.chars = t.chars ↔
      s.chars ≠ t.chars ∨ s.chars = t.chars) ∧
    ¬ (s.chars ≠ t.chars ∧ s.chars = t.chars) ∧
      (s.chars ≠ t.chars ↔
        ¬ (s.chars < t.chars ∨ t.chars = s.chars)) ↔ _
  have hBelow :=
    NRValue.bytes_not_lt (s := s.chars) (t := t.chars)
  have hAbove :=
    NRValue.bytes_not_lt (s := t.chars) (t := s.chars)
  rw [eq_comm (a := t.chars)] at hAbove ⊢
  tauto

theorem lawful_blob
    {s t : Blob}
    (hKey : a.getKey = b.getKey)
    (ha : a.val_ = .BLOB s)
    (hb : b.val_ = .BLOB t) :
    a.Lawful b ↔
      ¬ (s.bytes ≠ t.bytes ∧
        (s.bytes <+: t.bytes ∨ t.bytes <+: s.bytes)) := by
  have hType : a.getType = b.getType := by
    rw [getType, ha, getType, hb]
    rfl
  have hEQ := NRValue.isEQ_spec (v := a.val_) (w := b.val_) hType
  have hGT := (NRValue.isGT_spec hType).decides
    (ha ▸ NRValue.blob_not_string s)
  have hGE := NRValue.isGE_blob s t
  have hBack := NRValue.isGE_blob t s
  rw [← ha, ← hb] at hGE hBack
  rw [lawful_values hKey hType hEQ hGT hGE hBack, ha, hb]
  change (t.bytes < s.bytes ∨ s.bytes <+: t.bytes ↔
      t.bytes < s.bytes ∨ s.bytes = t.bytes) ∧
    ¬ (t.bytes < s.bytes ∧ s.bytes = t.bytes) ∧
      (t.bytes < s.bytes ↔
        ¬ (s.bytes < t.bytes ∨ t.bytes <+: s.bytes)) ↔ _
  by_cases hSame : s.bytes = t.bytes
  · simp only [hSame, List.prefix_refl, NRValue.bytes_irrefl]
    simp
  · have hBelow :=
      NRValue.bytes_not_lt (s := s.bytes) (t := t.bytes)
    have hAbove :=
      NRValue.bytes_not_lt (s := t.bytes) (t := s.bytes)
    have hShort : s.bytes <+: t.bytes → ¬ t.bytes < s.bytes :=
      NRValue.prefix_not_gt
    have hLong : t.bytes <+: s.bytes → ¬ s.bytes < t.bytes :=
      NRValue.prefix_not_gt
    have hBack : t.bytes ≠ s.bytes := fun h => hSame h.symm
    tauto

theorem isGT_trans_iff
    {P Q R : Prop}
    (hab : Decides (a.isGT b) P)
    (hbc : Decides (b.isGT c) Q)
    (hac : Decides (a.isGT c) R) :
    (a.isGT b = some true → b.isGT c = some true →
        a.isGT c = some true) ↔ (P → Q → R) := by
  rcases hab with ⟨x, hab, hx⟩
  rcases hbc with ⟨y, hbc, hy⟩
  rcases hac with ⟨z, hac, hz⟩
  rw [hab, hbc, hac, ← hx, ← hy, ← hz]
  simp only [Option.some_inj]

theorem isGT_decides
    {P : Prop}
    (hSame : a.isSameKey b = true)
    (hDecides : Decides (a.val_.isGT b.val_) P) :
    Decides (a.isGT b) P := by
  rw [isGT, compare, if_pos hSame]
  exact hDecides

theorem isSameKey_iff :
    a.isSameKey b = true ↔
      a.getType = b.getType ∧ a.getKey = b.getKey := by
  simp [isSameKey]

theorem isSameKey_trans
    (hab : a.isSameKey b = true)
    (hbc : b.isSameKey c = true) :
    a.isSameKey c = true := by
  rw [isSameKey_iff] at hab hbc ⊢
  exact ⟨hab.1.trans hbc.1, hab.2.trans hbc.2⟩

theorem lawful_conflict_iff
    (hSame : a.isSameKey b = true)
    (hDiscrete : a.Discrete) :
    a.Lawful b ↔ ¬ a.val_.Conflict b.val_ := by
  rcases isSameKey_iff.mp hSame with ⟨hType, hKey⟩
  rcases hDiscrete with hInt | hString | hBlob
  · rcases NRValue.int_of_type hInt with ⟨v, ha⟩
    rcases NRValue.int_of_type (hType ▸ hInt) with ⟨w, hb⟩
    rw [ha, hb]
    exact iff_of_true (lawful_int hKey ha hb) nofun
  · rcases NRValue.string_of_type hString with ⟨s, ha⟩
    rcases NRValue.string_of_type (hType ▸ hString) with
      ⟨t, hb⟩
    rw [ha, hb]
    exact lawful_string hKey ha hb
  · rcases NRValue.blob_of_type hBlob with ⟨s, ha⟩
    rcases NRValue.blob_of_type (hType ▸ hBlob) with ⟨t, hb⟩
    rw [ha, hb]
    exact lawful_blob hKey ha hb

/- Above strings that differ there may be the first again. -/
theorem isGT_transitive_iff
    (hab : a.isSameKey b = true)
    (hbc : b.isSameKey c = true)
    (hDiscrete : a.Discrete) :
    (a.isGT b = some true → b.isGT c = some true →
        a.isGT c = some true) ↔
      ¬ (a.getType = NRValue.STRING_TYPE ∧
        a.val_.Same c.val_ ∧ ¬ a.val_.Same b.val_) := by
  have hac := isSameKey_trans hab hbc
  rcases isSameKey_iff.mp hab with ⟨hType, -⟩
  rcases isSameKey_iff.mp hbc with ⟨hNext, -⟩
  have hAbove (hOther : a.getType ≠ NRValue.STRING_TYPE) :=
    isGT_trans_iff
      (isGT_decides hab
        ((NRValue.isGT_spec hType).decides hOther))
      (isGT_decides hbc
        ((NRValue.isGT_spec hNext).decides fun h =>
          hOther (hType.trans h)))
      (isGT_decides hac
        ((NRValue.isGT_spec (hType.trans hNext)).decides
          hOther))
  rcases hDiscrete with hInt | hString | hBlob
  · have hOther : a.getType ≠ NRValue.STRING_TYPE :=
      hInt ▸ (by decide)
    rw [hAbove hOther]
    refine iff_of_true ?_ fun h => hOther h.1
    rcases NRValue.int_of_type hInt with ⟨v, ha⟩
    rcases NRValue.int_of_type (hType ▸ hInt) with ⟨w, hb⟩
    rcases NRValue.int_of_type (hNext ▸ hType ▸ hInt) with
      ⟨u, hc⟩
    rw [ha, hb, hc]
    exact fun hFirst hSecond => lt_trans hSecond hFirst
  · rcases NRValue.string_of_type hString with ⟨s, ha⟩
    rcases NRValue.string_of_type (hType ▸ hString) with
      ⟨t, hb⟩
    rcases NRValue.string_of_type
        (hNext ▸ hType ▸ hString) with ⟨u, hc⟩
    have hst := NRValue.isGT_string s t
    have htu := NRValue.isGT_string t u
    have hsu := NRValue.isGT_string s u
    rw [← ha, ← hb] at hst
    rw [← hb, ← hc] at htu
    rw [← ha, ← hc] at hsu
    rw [isGT_trans_iff (isGT_decides hab hst)
      (isGT_decides hbc htu) (isGT_decides hac hsu), ha, hb, hc]
    change (s.chars ≠ t.chars → t.chars ≠ u.chars →
        s.chars ≠ u.chars) ↔
      ¬ (_ ∧ s.chars = u.chars ∧ ¬ s.chars = t.chars)
    constructor
    · rintro hTrans ⟨-, hEnds, hDiffer⟩
      exact hTrans hDiffer
        (fun h => hDiffer (hEnds.trans h.symm)) hEnds
    · exact fun hNever hDiffer _ hEnds =>
        hNever ⟨hString, hEnds, hDiffer⟩
  · have hOther : a.getType ≠ NRValue.STRING_TYPE :=
      hBlob ▸ (by decide)
    rw [hAbove hOther]
    refine iff_of_true ?_ fun h => hOther h.1
    rcases NRValue.blob_of_type hBlob with ⟨s, ha⟩
    rcases NRValue.blob_of_type (hType ▸ hBlob) with ⟨t, hb⟩
    rcases NRValue.blob_of_type (hNext ▸ hType ▸ hBlob) with
      ⟨u, hc⟩
    rw [ha, hb, hc]
    exact fun hFirst hSecond => List.lt_trans hSecond hFirst

/-
  When two attributes are compared as in a total order, and
  when `isGT` is transitive for three.
-/
theorem comparisons_lawful_iff
    (a b c : NRAttribute)
    (hab : a.isSameKey b = true)
    (hbc : b.isSameKey c = true)
    (hDiscrete : a.Discrete) :
    (a.Lawful b ↔ ¬ a.val_.Conflict b.val_) ∧
      ((a.isGT b = some true → b.isGT c = some true →
          a.isGT c = some true) ↔
        ¬ (a.getType = NRValue.STRING_TYPE ∧
          a.val_.Same c.val_ ∧ ¬ a.val_.Same b.val_)) :=
  ⟨lawful_conflict_iff hab hDiscrete,
    isGT_transitive_iff hab hbc hDiscrete⟩

/- Two task names, and two data blocks. -/
def taskName (chars : List Byte)
    (nonzero : ∀ c ∈ chars, c ≠ 0)
    (short : chars.length + 1 ≤ INT16_MAX) : NRAttribute :=
  ⟨2003, IS, .STRING ⟨chars, nonzero, short⟩⟩

def dataBlock (bytes : List Byte)
    (short : bytes.length ≤ INT16_MAX) : NRAttribute :=
  ⟨2001, IS, .BLOB ⟨bytes, short⟩⟩

theorem comparisons_lawful_blobs :
    ∃ a b : NRAttribute, a ≠ b ∧ a.isSameKey b = true ∧
      a.Lawful b ∧
      (a.isGT b = some true → b.isGT a = some true →
        a.isGT a = some true) := by
  let a := dataBlock [2, 1] (by decide)
  let b := dataBlock [2, 3] (by decide)
  have hBoth := comparisons_lawful_iff a b a (by decide)
    (by decide) (Or.inr (Or.inr rfl))
  refine ⟨a, b, by decide, by decide, hBoth.1.mpr ?_,
    hBoth.2.mpr fun hString => ?_⟩
  · change ¬ ([2, 1] ≠ [2, 3] ∧
      (([2, 1] : List Byte) <+: [2, 3] ∨ [2, 3] <+: [2, 1]))
    decide
  · exact absurd hString.1 (by decide)

/- Both below and above, and neither of the three. -/
theorem comparisons_unlawful :
    ∃ a b c d : NRAttribute,
      a.isSameKey b = true ∧ a.Discrete ∧
        a.isLT b = some true ∧ a.isGT b = some true ∧
        b.isGT a = some true ∧ a.isGT a = some false ∧
        ¬ a.Lawful b ∧
      c.isSameKey d = true ∧ c.Discrete ∧
        c.isLT d = some false ∧ c.isEQ d = some false ∧
        c.isGT d = some false ∧ ¬ c.Lawful d := by
  let a := taskName [97] (by decide) (by decide)
  let b := taskName [98] (by decide) (by decide)
  let c := dataBlock [1] (by decide)
  let d := dataBlock [1, 2] (by decide)
  refine ⟨a, b, c, d, by decide, Or.inr (Or.inl rfl), by decide,
    by decide, by decide, by decide, fun hLawful => ?_,
    by decide, Or.inr (Or.inr rfl), by decide, by decide,
    by decide, fun hLawful => ?_⟩
  · exact absurd hLawful.one (by decide)
  · exact absurd hLawful.one (by decide)

end NRAttribute

end Ns2
