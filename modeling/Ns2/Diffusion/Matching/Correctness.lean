import Ns2.Diffusion.Matching.Operations
import Ns2.Lib.Matching

/-
  What the two kinds of matching answer.

  Matching looks for values that meet an operator, perfect
  matching for equal attributes. Attributes with one key have
  one type, so no comparison ends the program.

  Main declarations:
    * `searchAll_spec`
    * `NRAttribute.Satisfies`, `NRAttribute.Equal`
    * `attributes_match`
-/

------------------------------------------------------------
-- Answers
------------------------------------------------------------

namespace Ns2

/- The result exists and says whether `P` holds. -/
def Decides
    (result : Option Bool)
    (P : Prop) : Prop :=
  ∃ answer, result = some answer ∧ (answer = true ↔ P)

/- The result exists, and is `P` as far as promised. -/
def DecidesWhen
    (result : Option Bool)
    (promised P : Prop) : Prop :=
  ∃ answer, result = some answer ∧
    (promised → (answer = true ↔ P))

theorem Decides.when
    {result : Option Bool}
    {promised P : Prop}
    (hDecides : Decides result P) :
    DecidesWhen result promised P := by
  rcases hDecides with
    ⟨answer, hResult, hIff⟩
  exact ⟨answer, hResult, fun _ => hIff⟩

theorem DecidesWhen.not
    {result : Option Bool}
    {promised P : Prop}
    (hDecides : DecidesWhen result promised P) :
    DecidesWhen (result.map (!·)) promised (¬ P) := by
  rcases hDecides with
    ⟨answer, hResult, hIff⟩
  refine ⟨!answer, by rw [hResult]; rfl, ?_⟩
  intro hPromised
  rw [← hIff hPromised]
  simp

theorem DecidesWhen.congr
    {result : Option Bool}
    {promised promised' P Q : Prop}
    (hDecides : DecidesWhen result promised P)
    (hPromised : promised' → promised)
    (hIff : promised' → (P ↔ Q)) :
    DecidesWhen result promised' Q := by
  rcases hDecides with
    ⟨answer, hResult, hAnswer⟩
  exact ⟨answer, hResult,
    fun h => (hAnswer (hPromised h)).trans (hIff h)⟩

theorem decides_decide
    {P Q : Prop}
    [Decidable P]
    (hIff : P ↔ Q) : Decides (some (decide P)) Q :=
  ⟨decide P, rfl, by rw [decide_eq_true_iff, hIff]⟩

/- Values of different lengths are not compared. -/
theorem decides_unless
    {P Q : Prop}
    {m n : Nat}
    [Decidable P]
    (hIff : m = n → (P ↔ Q))
    (hLength : Q → m = n) :
    Decides
      (if m ≠ n then some false else some (decide P)) Q := by
  by_cases hSame : m = n
  · rw [if_neg (not_not.mpr hSame)]
    exact decides_decide (hIff hSame)
  · rw [if_pos hSame]
    exact ⟨false, rfl,
      iff_of_false nofun fun hQ => hSame (hLength hQ)⟩

theorem decides_either
    {P Q : Prop}
    [Decidable P] [Decidable Q] :
    Decides
      (if P then some true
        else if Q then some true else some false)
      (P ∨ Q) := by
  by_cases hP : P
  · rw [if_pos hP]
    exact ⟨true, rfl, iff_of_true rfl (Or.inl hP)⟩
  · rw [if_neg hP]
    by_cases hQ : Q
    · rw [if_pos hQ]
      exact ⟨true, rfl, iff_of_true rfl (Or.inr hQ)⟩
    · rw [if_neg hQ]
      exact ⟨false, rfl,
        iff_of_false nofun (not_or.mpr ⟨hP, hQ⟩)⟩

theorem decides_float
    {ordered : Bool}
    {P : Prop}
    [Decidable P] :
    Decides (some (ordered && decide P))
      (ordered = true ∧ P) :=
  ⟨_, rfl, by simp⟩

end Ns2

------------------------------------------------------------
-- Searching a Vector
------------------------------------------------------------

namespace Ns2

open NRAttribute

variable {accept : NRAttribute → NRAttribute → Option Bool}
variable {a b : NRAttribute}
variable {rest itr1 itr2 : NRAttrVec}

/- What happens at the first attribute with the key. -/
theorem searchFrom_eq :
    searchFrom accept a itr2 =
      (a.find_matching_key_from itr2).elim (some false)
        fun found =>
          (accept a found.1).bind fun accepted =>
            if accepted then some true
            else searchFrom accept a found.2.tail := by
  rw [searchFrom.eq_1]
  split
  · next hFind => simp [hFind]
  · next b place hFind =>
      rw [hFind]
      cases hAccept : accept a b with
      | none => simp [hAccept]
      | some accepted => cases accepted <;> simp [hAccept]

theorem searchFrom_nil :
    searchFrom accept a [] = some false := by
  rw [searchFrom_eq]
  rfl

theorem searchFrom_skip
    (hKey : b.getKey ≠ a.getKey) :
    searchFrom accept a (b :: rest) =
      searchFrom accept a rest := by
  have hFind :
      a.find_matching_key_from (b :: rest) =
        a.find_matching_key_from rest :=
    if_neg hKey
  rw [searchFrom_eq, hFind, ← searchFrom_eq]

theorem searchFrom_here
    (hKey : b.getKey = a.getKey) :
    searchFrom accept a (b :: rest) =
      (accept a b).bind fun accepted =>
        if accepted then some true
        else searchFrom accept a rest := by
  have hFind :
      a.find_matching_key_from (b :: rest) =
        some (b, b :: rest) :=
    if_pos hKey
  rw [searchFrom_eq, hFind]
  rfl

theorem searchFrom_accepted
    (hKey : b.getKey = a.getKey)
    (hAccept : accept a b = some true) :
    searchFrom accept a (b :: rest) = some true := by
  rw [searchFrom_here hKey, hAccept]
  rfl

theorem searchFrom_refused
    (hKey : b.getKey = a.getKey)
    (hAccept : accept a b = some false) :
    searchFrom accept a (b :: rest) =
      searchFrom accept a rest := by
  rw [searchFrom_here hKey, hAccept]
  rfl

/- An attribute that the search accepts. -/
def Accepted
    (accept : NRAttribute → NRAttribute → Option Bool)
    (a b : NRAttribute) : Prop :=
  b.getKey = a.getKey ∧ accept a b = some true

/- No comparison with the attribute ends the program. -/
def Answers
    (accept : NRAttribute → NRAttribute → Option Bool)
    (attrs : NRAttrVec)
    (a : NRAttribute) : Prop :=
  ∀ b ∈ attrs, b.getKey = a.getKey →
    ∃ answer, accept a b = some answer

theorem searchFrom_spec
    (hAnswers : Answers accept itr2 a) :
    Decides (searchFrom accept a itr2)
      (∃ b ∈ itr2, Accepted accept a b) := by
  induction itr2 with
  | nil =>
      exact ⟨false, searchFrom_nil, by simp⟩
  | cons b rest ih =>
      have hRest : Answers accept rest a :=
        fun c hMem => hAnswers c (List.mem_cons_of_mem _ hMem)
      rcases ih hRest with
        ⟨answer, hSearch, hIff⟩
      by_cases hKey : b.getKey = a.getKey
      · rcases hAnswers b List.mem_cons_self hKey with
          ⟨here, hHere⟩
        cases here with
        | true =>
            refine ⟨true, searchFrom_accepted hKey hHere, ?_⟩
            exact iff_of_true rfl
              ⟨b, List.mem_cons_self, hKey, hHere⟩
        | false =>
            have hNot : ¬ Accepted accept a b := by
              rintro ⟨_, hAccept⟩
              rw [hHere] at hAccept
              cases hAccept
            refine ⟨answer, ?_, ?_⟩
            · rw [searchFrom_refused hKey hHere, hSearch]
            · rw [hIff]
              simp [hNot]
      · have hNot : ¬ Accepted accept a b :=
          fun hAccept => hKey hAccept.1
        refine ⟨answer, ?_, ?_⟩
        · rw [searchFrom_skip hKey, hSearch]
        · rw [hIff]
          simp [hNot]

theorem searchAll_cons_found
    (hFrom : searchFrom accept a itr2 = some true) :
    searchAll accept itr2 (a :: itr1) =
      searchAll accept itr2 itr1 := by
  simp only [searchAll, hFrom]

theorem searchAll_cons_missing
    (hFrom : searchFrom accept a itr2 = some false) :
    searchAll accept itr2 (a :: itr1) = some false := by
  simp only [searchAll, hFrom]

/- The search succeeds if it accepts one for each. -/
theorem searchAll_spec
    (hAnswers : ∀ a ∈ itr1, Answers accept itr2 a) :
    Decides (searchAll accept itr2 itr1)
      (Covers (Accepted accept) itr1 itr2) := by
  induction itr1 with
  | nil =>
      exact ⟨true, rfl, iff_of_true rfl covers_nil⟩
  | cons a rest ih =>
      rcases List.forall_mem_cons.mp hAnswers with
        ⟨hFirst, hRest⟩
      rcases searchFrom_spec hFirst with
        ⟨found, hFrom, hFound⟩
      cases found with
      | true =>
          rcases ih hRest with
            ⟨answer, hAll, hIff⟩
          refine ⟨answer, ?_, ?_⟩
          · rw [searchAll_cons_found hFrom, hAll]
          · rw [hIff, covers_cons]
            exact (and_iff_right (hFound.mp rfl)).symm
      | false =>
          refine ⟨false, searchAll_cons_missing hFrom, ?_⟩
          rw [covers_cons]
          have hNone :
              ¬ ∃ b ∈ itr2, Accepted accept a b :=
            fun hSome => nomatch hFound.mpr hSome
          exact iff_of_false nofun
            (fun hBoth => hNone hBoth.1)

end Ns2

------------------------------------------------------------
-- The Order of Bytes
------------------------------------------------------------

namespace Ns2

variable {a b : Byte}
variable {s t : List Byte}
variable {n : Nat}

theorem byte_lt_iff :
    (a.toNat : Int) - b.toNat < 0 ↔ a < b := by
  rw [BitVec.lt_def]
  omega

theorem byte_sub_ne_zero
    (hDiffer : a ≠ b) :
    (a.toNat : Int) - b.toNat ≠ 0 := by
  intro hZero
  apply hDiffer
  apply BitVec.eq_of_toNat_eq
  omega

/- Strings that end with their first zero. -/
theorem strcmp_spec
    (hs : ∀ c ∈ s, c ≠ 0)
    (ht : ∀ c ∈ t, c ≠ 0) :
    (strcmp (s ++ [0]) (t ++ [0]) < 0 ↔ s < t) ∧
      (strcmp (s ++ [0]) (t ++ [0]) = 0 ↔ s = t) := by
  induction s generalizing t with
  | nil =>
      cases t with
      | nil => simp [strcmp]
      | cons b rest =>
          have hb : b ≠ 0 := ht b List.mem_cons_self
          have hPos : 0 < b.toNat := by
            rcases Nat.eq_zero_or_pos b.toNat with
              hZero | hPos
            · exact absurd (BitVec.eq_of_toNat_eq hZero) hb
            · exact hPos
          simp only [strcmp, List.nil_append,
            List.cons_append, if_neg (Ne.symm hb)]
          simp
          omega
  | cons a rest ih =>
      have ha : a ≠ 0 := hs a List.mem_cons_self
      cases t with
      | nil =>
          have hPos : 0 < a.toNat := by
            rcases Nat.eq_zero_or_pos a.toNat with
              hZero | hPos
            · exact absurd (BitVec.eq_of_toNat_eq hZero) ha
            · exact hPos
          simp only [strcmp, List.nil_append,
            List.cons_append, if_neg ha]
          simp
          omega
      | cons b rest' =>
          have hRest :=
            ih (t := rest')
              (fun c hMem => hs c (List.mem_cons_of_mem _ hMem))
              (fun c hMem => ht c (List.mem_cons_of_mem _ hMem))
          by_cases hSame : a = b
          · subst hSame
            simp only [strcmp, List.cons_append, if_true,
              if_neg ha]
            rw [hRest.1, hRest.2]
            simp
          · simp only [strcmp, List.cons_append,
              if_neg hSame]
            constructor
            · rw [byte_lt_iff, List.cons_lt_cons_iff]
              simp [hSame]
            · simp [hSame, byte_sub_ne_zero hSame]

/- Within the longer string the bound does not matter. -/
theorem strncmp_eq_strcmp
    (hs : s.length ≤ n ∨ t.length ≤ n) :
    strncmp n s t = strcmp s t := by
  induction n generalizing s t with
  | zero =>
      rcases hs with
        hs | ht
      · have hEmpty : s = [] := by simpa using hs
        subst hEmpty
        simp [strncmp, strcmp]
      · have hEmpty : t = [] := by simpa using ht
        subst hEmpty
        simp [strncmp, strcmp]
  | succ n ih =>
      cases s with
      | nil => simp [strncmp, strcmp]
      | cons a rest =>
          cases t with
          | nil => simp [strncmp, strcmp]
          | cons b rest' =>
              have hRest :
                  rest.length ≤ n ∨ rest'.length ≤ n := by
                simpa using hs
              simp only [strncmp, strcmp, ih hRest]

theorem memcmp_spec
    (hn : min s.length t.length = n) :
    ((memcmp n s t < 0 ∨
        memcmp n s t = 0 ∧ s.length < t.length) ↔ s < t) ∧
      (s.length = t.length →
        (memcmp n s t = 0 ↔ s = t)) := by
  induction n generalizing s t with
  | zero =>
      cases s with
      | nil => cases t <;> simp [memcmp]
      | cons a rest =>
          cases t with
          | nil => simp [memcmp]
          | cons b rest' => simp at hn
  | succ n ih =>
      cases s with
      | nil => simp at hn
      | cons a rest =>
          cases t with
          | nil => simp at hn
          | cons b rest' =>
              have hRest : min rest.length rest'.length = n := by
                simp at hn
                omega
              by_cases hSame : a = b
              · subst hSame
                have hMore := ih hRest
                simp only [memcmp, if_true]
                simpa using hMore
              · simp only [memcmp, if_neg hSame]
                have hDiffer := byte_sub_ne_zero hSame
                constructor
                · simp only [hDiffer, false_and, or_false]
                  rw [byte_lt_iff, List.cons_lt_cons_iff]
                  simp [hSame]
                · simp [hSame, hDiffer]

end Ns2

------------------------------------------------------------
-- The Meaning of the Operators
------------------------------------------------------------

namespace Ns2

namespace NRValue

/- The same value; a NaN is not the same as any number. -/
def Same : NRValue → NRValue → Prop
| INT32 v, INT32 w => v = w
| FLOAT32 v, FLOAT32 w =>
    Float.ordered Float.inf32 v w ∧
      Float.rank v = Float.rank w
| FLOAT64 v, FLOAT64 w =>
    Float.ordered Float.inf64 v w ∧
      Float.rank v = Float.rank w
| STRING s, STRING t => s.chars = t.chars
| BLOB s, BLOB t => s.bytes = t.bytes
| _, _ => False

/- A greater number, or bytes later in dictionary order. -/
def Above : NRValue → NRValue → Prop
| INT32 v, INT32 w => w.toInt < v.toInt
| FLOAT32 v, FLOAT32 w =>
    Float.ordered Float.inf32 v w ∧
      Float.rank w < Float.rank v
| FLOAT64 v, FLOAT64 w =>
    Float.ordered Float.inf64 v w ∧
      Float.rank w < Float.rank v
| STRING s, STRING t => t.chars < s.chars
| BLOB s, BLOB t => t.bytes < s.bytes
| _, _ => False

/- Floating point numbers one of which is a NaN. -/
def Unordered : NRValue → NRValue → Prop
| FLOAT32 v, FLOAT32 w =>
    Float.ordered Float.inf32 v w = false
| FLOAT64 v, FLOAT64 w =>
    Float.ordered Float.inf64 v w = false
| _, _ => False

end NRValue

namespace NRAttribute

/- The value of `b` meets the operator and value of `a`. -/
def Satisfies (b a : NRAttribute) : Prop :=
  (a.getOp = NRAttribute.EQ_ANY) ∨
  (a.getOp = NRAttribute.EQ ∧ b.val_.Same a.val_) ∨
  (a.getOp = NRAttribute.NE ∧ ¬ b.val_.Same a.val_) ∨
  (a.getOp = NRAttribute.GT ∧ b.val_.Above a.val_) ∨
  (a.getOp = NRAttribute.GE ∧
    (b.val_.Above a.val_ ∨ b.val_.Same a.val_)) ∨
  (a.getOp = NRAttribute.LT ∧
    (a.val_.Above b.val_ ∨ b.val_.Unordered a.val_)) ∨
  (a.getOp = NRAttribute.LE ∧
    (a.val_.Above b.val_ ∨ b.val_.Same a.val_ ∨
      b.val_.Unordered a.val_))

/- The same key, type and operator, and the same value. -/
def Equal (a b : NRAttribute) : Prop :=
  a.getKey = b.getKey ∧ a.getType = b.getType ∧
    a.getOp = b.getOp ∧ a.val_.Same b.val_

/- Strings are not asked for order, nor blobs for bounds. -/
def Plain (a : NRAttribute) : Prop :=
  (a.getType = NRValue.STRING_TYPE →
    a.getOp ≠ NRAttribute.GT ∧ a.getOp ≠ NRAttribute.LE) ∧
  (a.getType = NRValue.BLOB_TYPE →
    a.getOp ≠ NRAttribute.GE ∧ a.getOp ≠ NRAttribute.LT)

end NRAttribute

/- One key is used with one type in both vectors. -/
def OneType (attr_vec1 attr_vec2 : NRAttrVec) : Prop :=
  ∀ a ∈ attr_vec1, ∀ b ∈ attr_vec2,
    a.getKey = b.getKey → a.getType = b.getType

end Ns2

------------------------------------------------------------
-- Comparing Values
------------------------------------------------------------

namespace Ns2

namespace NRValue

variable {v w : NRValue}

instance : Std.Trichotomous (fun a b : Byte => a < b) where
  trichotomous a b hLess hGreater := by
    apply BitVec.eq_of_toNat_eq
    rw [BitVec.lt_def] at hLess hGreater
    omega

theorem bytes_not_lt
    {s t : List Byte} :
    ¬ t < s ↔ s < t ∨ s = t :=
  List.not_lt.trans List.le_iff_lt_or_eq

/- Values of one type are built the same way. -/
@[elab_as_elim]
theorem sameType_cases
    {motive : NRValue → NRValue → Prop}
    (int32 : ∀ v w, motive (.INT32 v) (.INT32 w))
    (float32 : ∀ v w, motive (.FLOAT32 v) (.FLOAT32 w))
    (float64 : ∀ v w, motive (.FLOAT64 v) (.FLOAT64 w))
    (string : ∀ s t, motive (.STRING s) (.STRING t))
    (blob : ∀ s t, motive (.BLOB s) (.BLOB t))
    (hType : v.type_ = w.type_) : motive v w := by
  cases v <;> cases w
  case INT32.INT32 v w => exact int32 v w
  case FLOAT32.FLOAT32 v w => exact float32 v w
  case FLOAT64.FLOAT64 v w => exact float64 v w
  case STRING.STRING s t => exact string s t
  case BLOB.BLOB s t => exact blob s t
  all_goals exact absurd hType (by simp [type_,
    INT32_TYPE, FLOAT32_TYPE, FLOAT64_TYPE, STRING_TYPE,
    BLOB_TYPE])

theorem CString.strcmp_spec
    (s t : CString) :
    (strcmp s.bytes t.bytes < 0 ↔ s.chars < t.chars) ∧
      (strcmp s.bytes t.bytes = 0 ↔ s.chars = t.chars) :=
  Ns2.strcmp_spec s.nonzero t.nonzero

theorem CString.strncmp_eq
    (s t : CString) :
    strncmp s.bytes.length s.bytes t.bytes = 0 ↔
      s.chars = t.chars := by
  rw [strncmp_eq_strcmp (Or.inl le_rfl)]
  exact (CString.strcmp_spec s t).2

theorem isEQ_spec
    (hType : v.type_ = w.type_) :
    Decides (v.isEQ w) (v.Same w) := by
  refine sameType_cases ?int32 ?float32 ?float64 ?string
    ?blob hType
  case int32 =>
    exact fun v w => decides_decide BitVec.toInt_inj
  case float32 => exact fun v w => decides_float
  case float64 => exact fun v w => decides_float
  case string =>
    intro s t
    refine decides_unless
      (fun _ => CString.strncmp_eq s t) ?_
    intro hSame
    have hSame : s.chars = t.chars := hSame
    simp [CString.bytes, hSame]
  case blob =>
    intro s t
    refine decides_unless
      (fun hLength => (memcmp_spec ?_).2 hLength) ?_
    · rw [hLength, Nat.min_self]
    · intro hSame
      have hSame : s.bytes = t.bytes := hSame
      rw [hSame]

/- Which of two blobs comes later in dictionary order. -/
theorem blob_later
    {s t : List Byte}
    {n : Nat}
    (hMin : min s.length t.length = n) :
    t < s ↔
      memcmp n s t > 0 ∨
        memcmp n s t = 0 ∧ s.length > t.length := by
  rcases memcmp_spec hMin with
    ⟨hLess, hSame⟩
  have hAbove : t < s ↔ ¬ (s < t ∨ s = t) := by
    rw [← bytes_not_lt, not_not]
  have hEqual :
      s = t ↔ s.length = t.length ∧ memcmp n s t = 0 := by
    constructor
    · intro h
      have hLength := congrArg List.length h
      exact ⟨hLength, (hSame hLength).mpr h⟩
    · exact fun h => (hSame h.1).mp h.2
  rw [hAbove, hEqual, ← hLess]
  omega

/- The later blob is found, but not the later string. -/
theorem isGT_spec
    (hType : v.type_ = w.type_) :
    DecidesWhen (v.isGT w) (v.type_ ≠ STRING_TYPE)
      (v.Above w) := by
  refine sameType_cases ?int32 ?float32 ?float64 ?string
    ?blob hType
  case int32 =>
    exact fun v w => (decides_decide Iff.rfl).when
  case float32 => exact fun v w => decides_float.when
  case float64 => exact fun v w => decides_float.when
  case string =>
    exact fun s t =>
      ⟨_, rfl, fun hString => absurd rfl hString⟩
  case blob =>
    exact fun s t =>
      decides_either.when.congr (fun _ => trivial)
        fun _ => (blob_later rfl).symm

theorem float_ge
    {ordered : Prop}
    {m n : Int} :
    ordered ∧ m ≥ n ↔
      (ordered ∧ n < m) ∨ (ordered ∧ m = n) := by
  rw [← and_or_left]
  exact and_congr_right fun _ => by omega

/- A blob is taken to reach those it is a prefix of. -/
theorem isGE_spec
    (hType : v.type_ = w.type_) :
    DecidesWhen (v.isGE w) (v.type_ ≠ BLOB_TYPE)
      (v.Above w ∨ v.Same w) := by
  refine sameType_cases ?int32 ?float32 ?float64 ?string
    ?blob hType
  case int32 =>
    intro v w
    refine (decides_decide ?_).when
    change v.toInt ≥ w.toInt ↔ w.toInt < v.toInt ∨ v = w
    rw [← BitVec.toInt_inj]
    omega
  case float32 =>
    exact fun v w => decides_float.when.congr
      (fun _ => trivial) fun _ => float_ge
  case float64 =>
    exact fun v w => decides_float.when.congr
      (fun _ => trivial) fun _ => float_ge
  case string =>
    intro s t
    refine (decides_decide ?_).when
    rcases CString.strcmp_spec s t with
      ⟨hLess, hSame⟩
    change strcmp s.bytes t.bytes ≥ 0 ↔
      t.chars < s.chars ∨ s.chars = t.chars
    rw [eq_comm, ← bytes_not_lt, ← hLess]
    omega
  case blob =>
    exact fun s t =>
      ⟨_, rfl, fun hBlob => absurd rfl hBlob⟩

theorem float_not_gt
    {ordered : Bool}
    {m n : Int} :
    ¬ (ordered ∧ n < m) ↔
      (ordered ∧ m < n) ∨ (ordered ∧ m = n) ∨
        ordered = false := by
  cases ordered with
  | true => simp; omega
  | false => simp

theorem ordered_comm
    {n : Nat}
    {v w : BitVec n}
    {inf : Nat} :
    Float.ordered inf v w = Float.ordered inf w v :=
  Bool.and_comm _ _

/- What is not above is below, the same or unordered. -/
theorem not_above
    (hType : v.type_ = w.type_) :
    ¬ v.Above w ↔
      w.Above v ∨ v.Same w ∨ v.Unordered w := by
  refine sameType_cases ?int32 ?float32 ?float64 ?string
    ?blob hType
  case int32 =>
    intro v w
    change ¬ w.toInt < v.toInt ↔
      v.toInt < w.toInt ∨ v = w ∨ False
    rw [or_false, ← BitVec.toInt_inj]
    omega
  case float32 =>
    intro v w
    change ¬ (_ ∧ _) ↔ (Float.ordered _ w v ∧ _) ∨ _
    rw [ordered_comm (v := w)]
    exact float_not_gt
  case float64 =>
    intro v w
    change ¬ (_ ∧ _) ↔ (Float.ordered _ w v ∧ _) ∨ _
    rw [ordered_comm (v := w)]
    exact float_not_gt
  case string =>
    intro s t
    change ¬ t.chars < s.chars ↔
      s.chars < t.chars ∨ s.chars = t.chars ∨ False
    rw [or_false, bytes_not_lt]
  case blob =>
    intro s t
    change ¬ t.bytes < s.bytes ↔
      s.bytes < t.bytes ∨ s.bytes = t.bytes ∨ False
    rw [or_false, bytes_not_lt]

/- A value is not the same as one above or unordered. -/
theorem not_same
    (hType : v.type_ = w.type_)
    (hOther : w.Above v ∨ v.Unordered w) : ¬ v.Same w := by
  revert hOther
  refine sameType_cases ?int32 ?float32 ?float64 ?string
    ?blob hType
  case int32 =>
    rintro v w (hAbove | hUnordered) hSame
    · change v.toInt < w.toInt at hAbove
      change v = w at hSame
      rw [hSame] at hAbove
      omega
    · exact hUnordered
  case float32 =>
    rintro v w (hAbove | hUnordered) ⟨hOrdered, hRank⟩
    · have hLess := hAbove.2
      omega
    · exact absurd hOrdered (by rw [hUnordered]; decide)
  case float64 =>
    rintro v w (hAbove | hUnordered) ⟨hOrdered, hRank⟩
    · have hLess := hAbove.2
      omega
    · exact absurd hOrdered (by rw [hUnordered]; decide)
  case string =>
    rintro s t (hAbove | hUnordered) hSame
    · change s.chars < t.chars at hAbove
      change s.chars = t.chars at hSame
      rw [hSame] at hAbove
      exact List.lt_irrefl _ hAbove
    · exact hUnordered
  case blob =>
    rintro s t (hAbove | hUnordered) hSame
    · change s.bytes < t.bytes at hAbove
      change s.bytes = t.bytes at hSame
      rw [hSame] at hAbove
      exact List.lt_irrefl _ hAbove
    · exact hUnordered

theorem not_reaches
    (hType : v.type_ = w.type_) :
    ¬ (v.Above w ∨ v.Same w) ↔
      w.Above v ∨ v.Unordered w := by
  rw [not_or, not_above hType]
  constructor
  · rintro ⟨hAbove | hSame | hUnordered, hNot⟩
    · exact Or.inl hAbove
    · exact absurd hSame hNot
    · exact Or.inr hUnordered
  · intro hOther
    refine ⟨?_, not_same hType hOther⟩
    rcases hOther with
      hAbove | hUnordered
    · exact Or.inl hAbove
    · exact Or.inr (Or.inr hUnordered)

end NRValue

end Ns2

------------------------------------------------------------
-- Comparing Attributes
------------------------------------------------------------

namespace Ns2

namespace NRAttribute

variable {a b : NRAttribute}

theorem compare_same
    {test : NRValue → NRValue → Option Bool}
    (hKey : a.getKey = b.getKey)
    (hType : a.getType = b.getType) :
    a.compare b test = test a.val_ b.val_ := by
  simp [compare, isSameKey, hKey, hType]

/- What each operator asks of the two values. -/
theorem matchOp_spec
    (hKey : b.getKey = a.getKey)
    (hType : b.getType = a.getType)
    (hAny : a.getOp ≠ NRAttribute.EQ_ANY) :
    DecidesWhen (matchOp a b) a.Plain (b.Satisfies a) := by
  have hEQ :
      DecidesWhen (b.isEQ a) a.Plain
        (b.val_.Same a.val_) := by
    rw [isEQ, compare_same hKey hType]
    exact (NRValue.isEQ_spec hType).when
  have hGT :
      DecidesWhen (b.isGT a) (b.getType ≠ NRValue.STRING_TYPE)
        (b.val_.Above a.val_) := by
    rw [isGT, compare_same hKey hType]
    exact NRValue.isGT_spec hType
  have hGE :
      DecidesWhen (b.isGE a) (b.getType ≠ NRValue.BLOB_TYPE)
        (b.val_.Above a.val_ ∨ b.val_.Same a.val_) := by
    rw [isGE, compare_same hKey hType]
    exact NRValue.isGE_spec hType
  unfold matchOp
  split
  · next hOp =>
      refine hEQ.congr id fun _ => ?_
      simp [Satisfies, hOp, EQ, EQ_ANY, NE, GT, GE, LT, LE]
  · split
    · next hOp =>
        refine hGT.congr ?_ fun _ => ?_
        · exact fun hPlain hString =>
            (hPlain.1 (hType ▸ hString)).1 hOp
        · simp [Satisfies, hOp, EQ, EQ_ANY, NE, GT, GE, LT,
            LE]
    · split
      · next hOp =>
          refine hGE.congr ?_ fun _ => ?_
          · exact fun hPlain hBlob =>
              (hPlain.2 (hType ▸ hBlob)).1 hOp
          · simp [Satisfies, hOp, EQ, EQ_ANY, NE, GT, GE,
              LT, LE]
      · split
        · next hOp =>
            refine hGE.not.congr ?_ fun _ => ?_
            · exact fun hPlain hBlob =>
                (hPlain.2 (hType ▸ hBlob)).2 hOp
            · rw [NRValue.not_reaches hType]
              simp [Satisfies, hOp, EQ, EQ_ANY, NE, GT, GE,
                LT, LE]
        · split
          · next hOp =>
              refine hGT.not.congr ?_ fun _ => ?_
              · exact fun hPlain hString =>
                  (hPlain.1 (hType ▸ hString)).2 hOp
              · rw [NRValue.not_above hType]
                simp [Satisfies, hOp, EQ, EQ_ANY, NE, GT,
                  GE, LT, LE]
          · split
            · next hOp =>
                refine hEQ.not.congr id fun _ => ?_
                simp [Satisfies, hOp, EQ, EQ_ANY, NE, GT,
                  GE, LT, LE]
            · refine ⟨false, rfl, fun _ => ?_⟩
              refine iff_of_false nofun ?_
              simp_all [Satisfies]

end NRAttribute

end Ns2

------------------------------------------------------------
-- Equal Attributes
------------------------------------------------------------

namespace Ns2

namespace NRValue

variable {u v w : NRValue}

theorem Same.type_eq
    (hSame : v.Same w) : v.type_ = w.type_ := by
  cases v <;> cases w <;> first | rfl | exact hSame.elim

theorem Same.symm
    (hSame : v.Same w) : w.Same v := by
  have hType := hSame.type_eq
  revert hSame
  refine sameType_cases ?int32 ?float32 ?float64 ?string
    ?blob hType
  case int32 => exact fun v w hSame => Eq.symm hSame
  case float32 =>
    rintro v w ⟨hOrdered, hRank⟩
    exact ⟨ordered_comm.trans hOrdered, hRank.symm⟩
  case float64 =>
    rintro v w ⟨hOrdered, hRank⟩
    exact ⟨ordered_comm.trans hOrdered, hRank.symm⟩
  case string => exact fun s t hSame => Eq.symm hSame
  case blob => exact fun s t hSame => Eq.symm hSame

theorem ordered_trans
    {n : Nat}
    {u v w : BitVec n}
    {inf : Nat}
    (hFirst : Float.ordered inf u v = true)
    (hSecond : Float.ordered inf v w = true) :
    Float.ordered inf u w = true := by
  rcases (Bool.and_eq_true _ _).mp hFirst with
    ⟨hu, _⟩
  rcases (Bool.and_eq_true _ _).mp hSecond with
    ⟨_, hw⟩
  exact (Bool.and_eq_true _ _).mpr ⟨hu, hw⟩

theorem Same.trans
    (hFirst : u.Same v)
    (hSecond : v.Same w) : u.Same w := by
  have hType := hFirst.type_eq
  revert hFirst hSecond
  refine sameType_cases ?int32 ?float32 ?float64 ?string
    ?blob hType
  case int32 =>
    intro u v hFirst hSecond
    cases w with
    | INT32 w => exact Eq.trans hFirst hSecond
    | _ => exact hSecond.elim
  case float32 =>
    intro u v hFirst hSecond
    cases w with
    | FLOAT32 w =>
        exact ⟨ordered_trans hFirst.1 hSecond.1,
          hFirst.2.trans hSecond.2⟩
    | _ => exact hSecond.elim
  case float64 =>
    intro u v hFirst hSecond
    cases w with
    | FLOAT64 w =>
        exact ⟨ordered_trans hFirst.1 hSecond.1,
          hFirst.2.trans hSecond.2⟩
    | _ => exact hSecond.elim
  case string =>
    intro s t hFirst hSecond
    cases w with
    | STRING w => exact Eq.trans hFirst hSecond
    | _ => exact hSecond.elim
  case blob =>
    intro s t hFirst hSecond
    cases w with
    | BLOB w => exact Eq.trans hFirst hSecond
    | _ => exact hSecond.elim

end NRValue

namespace NRAttribute

theorem equal_partial : Partial Equal where
  symm _ _ hEqual :=
    ⟨hEqual.1.symm, hEqual.2.1.symm, hEqual.2.2.1.symm,
      hEqual.2.2.2.symm⟩
  trans _ _ _ hFirst hSecond :=
    ⟨hFirst.1.trans hSecond.1,
      hFirst.2.1.trans hSecond.2.1,
      hFirst.2.2.1.trans hSecond.2.2.1,
      hFirst.2.2.2.trans hSecond.2.2.2⟩

end NRAttribute

end Ns2

------------------------------------------------------------
-- What the Searches Accept
------------------------------------------------------------

namespace Ns2

open NRAttribute

variable {a b : NRAttribute}
variable {attr_vec1 attr_vec2 : NRAttrVec}

/- The attribute that `OneWayMatch` looks for. -/
def Matched (a b : NRAttribute) : Prop :=
  b.getKey = a.getKey ∧ b.getType = a.getType ∧
    b.getOp = NRAttribute.IS ∧ b.Satisfies a

theorem OneType.symm
    (hTypes : OneType attr_vec1 attr_vec2) :
    OneType attr_vec2 attr_vec1 :=
  fun a ha b hb hKey => (hTypes b hb a ha hKey.symm).symm

theorem matchable_spec
    (hKey : b.getKey = a.getKey)
    (hType : b.getType = a.getType) :
    DecidesWhen (matchable a b) a.Plain (Matched a b) := by
  unfold matchable
  by_cases hIs : b.getOp = NRAttribute.IS
  · rw [if_neg (not_not.mpr hIs)]
    by_cases hAny : a.getOp = NRAttribute.EQ_ANY
    · rw [if_pos hAny]
      refine ⟨true, rfl, fun _ => iff_of_true rfl ?_⟩
      exact ⟨hKey, hType, hIs, Or.inl hAny⟩
    · rw [if_neg hAny]
      refine (matchOp_spec hKey hType hAny).congr id ?_
      exact fun _ =>
        ⟨fun hMet => ⟨hKey, hType, hIs, hMet⟩,
          fun hMatched => hMatched.2.2.2⟩
  · rw [if_pos hIs]
    refine ⟨false, rfl, fun _ => iff_of_false nofun ?_⟩
    exact fun hMatched => hIs hMatched.2.2.1

theorem sameAttr_spec
    (hKey : b.getKey = a.getKey)
    (hType : b.getType = a.getType) :
    Decides (sameAttr a b) (a.Equal b) := by
  unfold sameAttr
  by_cases hOp : a.getOp = b.getOp
  · rw [if_pos hOp, isEQ,
      compare_same hKey.symm hType.symm]
    rcases NRValue.isEQ_spec hType.symm with
      ⟨answer, hAnswer, hIff⟩
    refine ⟨answer, hAnswer, hIff.trans ?_⟩
    exact ⟨fun hSame => ⟨hKey.symm, hType.symm, hOp, hSame⟩,
      fun hEqual => hEqual.2.2.2⟩
  · rw [if_neg hOp]
    exact ⟨false, rfl,
      iff_of_false nofun fun hEqual => hOp hEqual.2.2.1⟩

theorem OneType.accepted
    {accept : NRAttribute → NRAttribute → Option Bool}
    {promised : NRAttribute → Prop}
    {R : NRAttribute → NRAttribute → Prop}
    (hTypes : OneType attr_vec1 attr_vec2)
    (hAccept : ∀ a b, b.getKey = a.getKey →
      b.getType = a.getType →
      DecidesWhen (accept a b) (promised a) (R a b))
    (hKeys : ∀ a b, R a b → b.getKey = a.getKey)
    (ha : a ∈ attr_vec1)
    (hb : b ∈ attr_vec2)
    (hPromised : promised a) :
    Accepted accept a b ↔ R a b := by
  have hSpec :
      b.getKey = a.getKey →
        DecidesWhen (accept a b) (promised a) (R a b) :=
    fun hKey =>
      hAccept a b hKey (hTypes a ha b hb hKey.symm).symm
  constructor
  · rintro ⟨hKey, hTrue⟩
    rcases hSpec hKey with
      ⟨found, hFound, hIff⟩
    rw [hTrue] at hFound
    cases hFound
    exact (hIff hPromised).mp rfl
  · intro hRelated
    have hKey := hKeys a b hRelated
    rcases hSpec hKey with
      ⟨found, hFound, hIff⟩
    rw [(hIff hPromised).mpr hRelated] at hFound
    exact ⟨hKey, hFound⟩

/- With one type a key the search finds related ones. -/
theorem OneType.searchAll_spec
    {accept : NRAttribute → NRAttribute → Option Bool}
    {promised : NRAttribute → Prop}
    {R : NRAttribute → NRAttribute → Prop}
    (hTypes : OneType attr_vec1 attr_vec2)
    (hAccept : ∀ a b, b.getKey = a.getKey →
      b.getType = a.getType →
      DecidesWhen (accept a b) (promised a) (R a b))
    (hKeys : ∀ a b, R a b → b.getKey = a.getKey) :
    DecidesWhen (searchAll accept attr_vec2 attr_vec1)
      (∀ a ∈ attr_vec1, promised a)
      (Covers R attr_vec1 attr_vec2) := by
  have hAnswers :
      ∀ a ∈ attr_vec1, Answers accept attr_vec2 a := by
    intro a ha b hb hKey
    have hType := (hTypes a ha b hb hKey.symm).symm
    rcases hAccept a b hKey hType with
      ⟨answer, hAnswer, _⟩
    exact ⟨answer, hAnswer⟩
  rcases Ns2.searchAll_spec hAnswers with
    ⟨answer, hAnswer, hIff⟩
  refine ⟨answer, hAnswer, fun hPromised => hIff.trans ?_⟩
  constructor
  · intro hCovers a ha
    rcases hCovers a ha with
      ⟨b, hb, hFound⟩
    exact ⟨b, hb, (hTypes.accepted hAccept hKeys ha hb
      (hPromised a ha)).mp hFound⟩
  · intro hCovers a ha
    rcases hCovers a ha with
      ⟨b, hb, hRelated⟩
    exact ⟨b, hb, (hTypes.accepted hAccept hKeys ha hb
      (hPromised a ha)).mpr hRelated⟩

theorem OneWayMatch_spec
    (hTypes : OneType attr_vec1 attr_vec2) :
    DecidesWhen (OneWayMatch attr_vec1 attr_vec2)
      (∀ a ∈ attr_vec1, a.Plain)
      (∀ a ∈ attr_vec1, a.getOp ≠ NRAttribute.IS →
        ∃ b ∈ attr_vec2, Matched a b) := by
  have hAsked :
      OneType
        (attr_vec1.filter fun a =>
          a.getOp ≠ NRAttribute.IS) attr_vec2 :=
    fun a ha => hTypes a (List.mem_of_mem_filter ha)
  refine (hAsked.searchAll_spec
    (fun _ _ => matchable_spec)
    (fun _ _ hMatched => hMatched.1)).congr ?_ ?_
  · exact fun hPlain a ha =>
      hPlain a (List.mem_of_mem_filter ha)
  · intro _
    simp only [Covers, List.mem_filter, decide_eq_true_eq,
      and_imp]

theorem OneWayPerfectMatch_spec
    (hTypes : OneType attr_vec1 attr_vec2) :
    Decides (OneWayPerfectMatch attr_vec1 attr_vec2)
      (Covers Equal attr_vec1 attr_vec2) := by
  rcases hTypes.searchAll_spec
      (fun _ _ hKey hType => (sameAttr_spec hKey hType).when)
      (fun _ _ hEqual => Eq.symm hEqual.1) with
    ⟨answer, hAnswer, hIff⟩
  exact ⟨answer, hAnswer, hIff fun _ _ => trivial⟩

/- Both questions have an answer: both of them count. -/
theorem bothWays_eq
    {oneWay : NRAttrVec → NRAttrVec → Option Bool}
    {first second : Bool}
    (hFirst : oneWay attr_vec1 attr_vec2 = some first)
    (hSecond : oneWay attr_vec2 attr_vec1 = some second) :
    bothWays oneWay attr_vec1 attr_vec2 =
      some (first && second) := by
  cases first with
  | true => simp only [bothWays, hFirst, hSecond, Bool.true_and]
  | false => simp only [bothWays, hFirst, Bool.false_and]

/- It does not matter which vector comes first. -/
theorem MatchAttrs_comm
    (hTypes : OneType attr_vec1 attr_vec2) :
    ∃ answer, MatchAttrs attr_vec1 attr_vec2 = some answer ∧
      MatchAttrs attr_vec2 attr_vec1 = some answer := by
  rcases OneWayMatch_spec hTypes with
    ⟨first, hFirst, _⟩
  rcases OneWayMatch_spec hTypes.symm with
    ⟨second, hSecond, _⟩
  refine ⟨first && second, bothWays_eq hFirst hSecond, ?_⟩
  rw [Bool.and_comm]
  exact bothWays_eq hSecond hFirst

/- Each attribute has an equal one in the other vector. -/
theorem PerfectMatch_spec
    (hTypes : OneType attr_vec1 attr_vec2) :
    Decides (PerfectMatch attr_vec1 attr_vec2)
      (attr_vec1.length = attr_vec2.length ∧
        Covers Equal attr_vec1 attr_vec2 ∧
        Covers Equal attr_vec2 attr_vec1) := by
  unfold PerfectMatch
  by_cases hLength : attr_vec1.length = attr_vec2.length
  · rw [if_neg (not_not.mpr hLength)]
    rcases OneWayPerfectMatch_spec hTypes with
      ⟨first, hFirst, hThere⟩
    rcases OneWayPerfectMatch_spec hTypes.symm with
      ⟨second, hSecond, hBack⟩
    refine ⟨first && second, bothWays_eq hFirst hSecond, ?_⟩
    rw [Bool.and_eq_true, hThere, hBack]
    exact (and_iff_right hLength).symm
  · rw [if_pos hLength]
    exact ⟨false, rfl,
      iff_of_false nofun fun hBoth => hLength hBoth.1⟩

/- Without repetitions the vectors agree as multisets. -/
theorem PerfectMatch_rel
    (hTypes : OneType attr_vec1 attr_vec2)
    (hApart : attr_vec1.Pairwise fun a b => ¬ a.Equal b) :
    Decides (PerfectMatch attr_vec1 attr_vec2)
      (Multiset.Rel Equal (attr_vec1 : Multiset NRAttribute)
        (attr_vec2 : Multiset NRAttribute)) := by
  rcases PerfectMatch_spec hTypes with
    ⟨answer, hAnswer, hIff⟩
  refine ⟨answer, hAnswer, hIff.trans ?_⟩
  constructor
  · rintro ⟨hLength, hCovers, _⟩
    exact hCovers.rel equal_partial hApart hLength
  · intro hRel
    exact ⟨length_eq_of_rel hRel, covers_of_rel hRel,
      covers_of_rel (rel_swap equal_partial hRel)⟩

end Ns2

------------------------------------------------------------
-- Matching
------------------------------------------------------------

namespace Ns2

open NRAttribute

/- Matching and perfect matching with one type a key. -/
theorem attributes_match
    (attr_vec1 attr_vec2 : NRAttrVec)
    (hTypes : OneType attr_vec1 attr_vec2) :
    DecidesWhen (OneWayMatch attr_vec1 attr_vec2)
      (∀ a ∈ attr_vec1, a.Plain)
      (∀ a ∈ attr_vec1, a.getOp ≠ NRAttribute.IS →
        ∃ b ∈ attr_vec2, b.getKey = a.getKey ∧
          b.getType = a.getType ∧
          b.getOp = NRAttribute.IS ∧ b.Satisfies a) ∧
    (∃ answer,
      MatchAttrs attr_vec1 attr_vec2 = some answer ∧
      MatchAttrs attr_vec2 attr_vec1 = some answer) ∧
    Decides (PerfectMatch attr_vec1 attr_vec2)
      (attr_vec1.length = attr_vec2.length ∧
        (∀ a ∈ attr_vec1, ∃ b ∈ attr_vec2, a.Equal b) ∧
        (∀ b ∈ attr_vec2, ∃ a ∈ attr_vec1, b.Equal a)) ∧
    ((attr_vec1.Pairwise fun a b => ¬ a.Equal b) →
      Decides (PerfectMatch attr_vec1 attr_vec2)
        (Multiset.Rel Equal
          (attr_vec1 : Multiset NRAttribute)
          (attr_vec2 : Multiset NRAttribute))) := by
  refine ⟨?_, ?_, ?_, ?_⟩
  · exact OneWayMatch_spec hTypes
  · exact MatchAttrs_comm hTypes
  · exact PerfectMatch_spec hTypes
  · exact PerfectMatch_rel hTypes

/- A node asks for a nearby value, and another offers it. -/
def taskQuery : NRAttrVec :=
  [⟨2002, NRAttribute.GE, .INT32 5⟩]

def taskOffer : NRAttrVec :=
  [⟨2002, NRAttribute.IS, .INT32 7⟩,
    ⟨2007, NRAttribute.IS, .FLOAT32 0x42c80000⟩]

theorem attributes_match_task :
    (∃ answer,
      MatchAttrs taskQuery taskOffer = some answer ∧
      MatchAttrs taskOffer taskQuery = some answer) ∧
    Decides (PerfectMatch taskQuery taskOffer)
      (Multiset.Rel Equal
        (taskQuery : Multiset NRAttribute)
        (taskOffer : Multiset NRAttribute)) := by
  have hTypes : OneType taskQuery taskOffer := by
    unfold OneType
    decide
  have hMatch := attributes_match taskQuery taskOffer hTypes
  exact ⟨hMatch.2.1,
    hMatch.2.2.2 (List.pairwise_singleton _ _)⟩

/- One key with two types, and repeated attributes. -/
def typedQuery : NRAttribute :=
  ⟨3000, NRAttribute.EQ, .INT32 5⟩

def typedOffer : NRAttribute :=
  ⟨3000, NRAttribute.IS, .FLOAT32 0⟩

def otherOffer : NRAttribute :=
  ⟨3001, NRAttribute.IS, .FLOAT32 0⟩

theorem matching_ends_or_conflates :
    OneWayMatch [typedQuery] [typedOffer] = none ∧
      PerfectMatch [typedOffer, typedOffer, otherOffer]
        [typedOffer, otherOffer, otherOffer] = some true ∧
      ¬ List.Perm [typedOffer, typedOffer, otherOffer]
        [typedOffer, otherOffer, otherOffer] := by
  have hAbort : matchable typedQuery typedOffer = none := by
    decide
  have hTyped : typedOffer.Equal typedOffer :=
    ⟨rfl, rfl, rfl, by decide, rfl⟩
  have hOther : otherOffer.Equal otherOffer :=
    ⟨rfl, rfl, rfl, by decide, rfl⟩
  have hTypes :
      OneType [typedOffer, typedOffer, otherOffer]
        [typedOffer, otherOffer, otherOffer] := by
    unfold OneType
    decide
  refine ⟨?_, ?_, by decide⟩
  · have hSearch :
        searchFrom matchable typedQuery [typedOffer] =
          none := by
      rw [searchFrom_here (a := typedQuery) (b := typedOffer) rfl,
        hAbort]
      rfl
    have hAsked :
        [typedQuery].filter
            (fun a => a.getOp ≠ NRAttribute.IS) =
          [typedQuery] := by
      decide
    rw [OneWayMatch, hAsked]
    simp only [searchAll, hSearch]
  · rcases PerfectMatch_spec hTypes with
      ⟨answer, hAnswer, hIff⟩
    rw [hAnswer, hIff.mpr ⟨rfl, ?_, ?_⟩]
    · simp [Covers, hTyped, hOther]
    · simp [Covers, hTyped, hOther]

end Ns2
