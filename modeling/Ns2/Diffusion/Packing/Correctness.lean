import Ns2.Diffusion.Packing.Operations

/-
  Unpacking gives back what was packed.

  The bytes of an attribute in memory are described once; both
  packing and copying from a packet establish that description
  for a whole vector, and unpacking needs no more.

  Main declarations:
    * `Packed`, `PackedFrom`
    * `PackAttrs_packed`
    * `unpackFrom_packed`
    * `attributes_round_trip`
-/

------------------------------------------------------------
-- Making Attributes
------------------------------------------------------------

namespace Ns2

open NRValue

variable {mem : Memory}
variable {chars : List Byte}
variable {fuel pos : Nat}

theorem stringAt_spec
    (hNonzero : ∀ c ∈ chars, c ≠ 0)
    (hFuel : chars.length < fuel)
    (hRead :
      Memory.read mem pos (chars.length + 1) =
        chars ++ [0]) :
    stringAt mem fuel pos = some chars := by
  induction chars generalizing fuel pos with
  | nil =>
      rcases Nat.exists_eq_succ_of_ne_zero
          (Nat.ne_of_gt hFuel) with
        ⟨less, hLess⟩
      subst hLess
      rw [Memory.read_succ] at hRead
      have hZero : mem pos = 0 := (List.cons.inj hRead).1
      rw [stringAt, if_pos hZero]
  | cons c rest ih =>
      rcases Nat.exists_eq_succ_of_ne_zero
          (Nat.ne_of_gt (Nat.zero_lt_of_lt hFuel)) with
        ⟨less, hLess⟩
      subst hLess
      rw [Memory.read_succ] at hRead
      rcases List.cons.inj hRead with
        ⟨hFirst, hRest⟩
      have hNot : mem pos ≠ 0 := by
        rw [hFirst]
        exact hNonzero c List.mem_cons_self
      have hMore :
          stringAt mem less (pos + 1) = some rest :=
        ih (fun d hMem =>
            hNonzero d (List.mem_cons_of_mem _ hMem))
          (by simpa using hFuel) hRest
      rw [stringAt, if_neg hNot, hMore, hFirst]
      rfl

theorem CString.bytes_length
    (s : CString) : s.bytes.length = s.chars.length + 1 := by
  simp [CString.bytes]

/- A string in memory is made into an equal one. -/
theorem newString_spec
    {s : CString}
    (hRead :
      Memory.read mem pos s.bytes.length = s.bytes) :
    newString mem pos = some (STRING s) := by
  have hShort := s.short
  have hChars :
      stringAt mem INT16_MAX pos = some s.chars := by
    apply stringAt_spec s.nonzero hShort
    rw [← CString.bytes_length]
    exact hRead
  unfold newString
  rw [hChars, Option.bind_some,
    dif_pos ⟨s.nonzero, hShort⟩]

theorem newBlob_spec
    {b : Blob}
    (hRead :
      Memory.read mem pos b.bytes.length = b.bytes) :
    newBlob mem pos b.bytes.length = some (BLOB b) := by
  unfold newBlob
  simp only [hRead, dif_pos b.short]

/- A copy is equal to its source. -/
theorem copyAttr_spec
    (host : ByteOrder)
    (heap : Memory)
    (src : NRAttribute) :
    copyAttr host heap src = some src := by
  rcases src with
    ⟨key, op, val⟩
  have hCopy : val.copy host heap = some val := by
    cases val with
    | INT32 v => rfl
    | FLOAT32 v => rfl
    | FLOAT64 v => rfl
    | STRING s => exact newString_spec Memory.read_write
    | BLOB b => exact newBlob_spec Memory.read_write
  rw [copyAttr, hCopy]
  rfl

theorem CopyAttrs_spec
    (host : ByteOrder)
    (heap : Memory)
    (src_attrs : NRAttrVec) :
    CopyAttrs host heap src_attrs = some src_attrs := by
  induction src_attrs with
  | nil => rfl
  | cons src rest ih =>
      rw [CopyAttrs, copyAttr_spec, ih]
      rfl

end Ns2

------------------------------------------------------------
-- Packed Attributes
------------------------------------------------------------

namespace Ns2

open NRValue

variable {host : ByteOrder}
variable {mem other : Memory}
variable {attr : NRAttribute}
variable {itr : NRAttrVec}
variable {current start i : Nat}

theorem ntoh_eq
    {n : Nat}
    {pos : Nat}
    {x : BitVec (8 * n)}
    (hRead :
      Memory.read mem pos n =
        host.store (host.toNetwork x)) :
    ntoh host n mem pos = x := by
  rw [ntoh, hRead, ByteOrder.load_store,
    ByteOrder.toNetwork_toNetwork]

/- The value as it is in a packet. -/
def packedVal (host : ByteOrder) : NRValue → List Byte
| INT32 v => host.store (n := 4) (host.toNetwork (n := 4) v)
| val => val.genericVal host

theorem packedVal_length
    (host : ByteOrder)
    (val : NRValue) :
    (packedVal host val).length = val.len_ := by
  cases val with
  | INT32 v => exact host.store_length _
  | FLOAT32 v => exact host.store_length _
  | FLOAT64 v => exact host.store_length _
  | STRING s => rfl
  | BLOB b => rfl

/- The bytes at an address are those of an attribute. -/
structure Packed
    (host : ByteOrder)
    (mem : Memory)
    (current : Nat)
    (attr : NRAttribute) : Prop where
  key :
    Memory.read mem current 4 =
      host.store (n := 4)
        (host.toNetwork (n := 4) attr.getKey)
  type : mem (current + 4) = attr.getType
  op : mem (current + 5) = attr.getOp
  len :
    Memory.read mem (current + 6) 2 =
      host.store (n := 2)
        (host.toNetwork (n := 2)
          (BitVec.ofNat 16 attr.getLen))
  val :
    Memory.read mem (current + 8) attr.getLen =
      packedVal host attr.val_

def PackedFrom
    (host : ByteOrder)
    (mem : Memory) : Nat → NRAttrVec → Prop
| _, [] => True
| current, attr :: itr =>
    Packed host mem current attr ∧
      PackedFrom host mem (current + stride attr.getLen) itr

/- Nothing else in memory matters. -/
theorem Packed.congr
    (hPacked : Packed host mem current attr)
    (hSame : ∀ i, i < 8 + attr.getLen →
      other (start + i) = mem (current + i)) :
    Packed host other start attr := by
  constructor
  case key =>
    rw [← hPacked.key]
    exact Memory.read_congr fun i hLess =>
      hSame i (by omega)
  case type => exact (hSame 4 (by omega)).trans hPacked.type
  case op => exact (hSame 5 (by omega)).trans hPacked.op
  case len =>
    rw [← hPacked.len]
    apply Memory.read_congr
    intro i hLess
    have hThere := hSame (6 + i) (by omega)
    rwa [← Nat.add_assoc, ← Nat.add_assoc] at hThere
  case val =>
    rw [← hPacked.val]
    apply Memory.read_congr
    intro i hLess
    have hThere := hSame (8 + i) (by omega)
    rwa [← Nat.add_assoc, ← Nat.add_assoc] at hThere

theorem stride_le :
    8 + attr.getLen ≤ stride attr.getLen := by
  unfold stride headerSize
  omega

theorem PackedFrom.congr
    (hPacked : PackedFrom host mem current itr)
    (hSame : ∀ i, i < CalculateSize itr →
      other (start + i) = mem (current + i)) :
    PackedFrom host other start itr := by
  induction itr generalizing current start with
  | nil => trivial
  | cons attr rest ih =>
      rcases hPacked with
        ⟨hFirst, hRest⟩
      have hStride := @stride_le attr
      constructor
      · apply hFirst.congr
        intro i hLess
        apply hSame
        rw [CalculateSize]
        omega
      · apply ih hRest
        intro i hLess
        have hThere := hSame (stride attr.getLen + i)
          (by rw [CalculateSize]; omega)
        rwa [← Nat.add_assoc, ← Nat.add_assoc] at hThere

end Ns2

------------------------------------------------------------
-- Packing
------------------------------------------------------------

namespace Ns2

open NRValue

variable {host : ByteOrder}
variable {mem : Memory}
variable {attr : NRAttribute}
variable {itr : NRAttrVec}
variable {current i : Nat}

theorem write_nil :
    Memory.write mem current [] = mem := by
  funext i
  exact Memory.write_outside (by simp; omega)

theorem packValue_eq :
    packValue host attr current mem =
      Memory.write mem (current + 8)
        (packedVal host attr.val_) := by
  rcases attr with
    ⟨key, op, val⟩
  cases val <;> rfl

/- The value of an attribute, also if it has no bytes. -/
theorem packAttr_value :
    (if attr.getLen > 0 then
      packValue host attr current mem
    else mem) =
      Memory.write mem (current + 8)
        (packedVal host attr.val_) := by
  by_cases hLen : attr.getLen > 0
  · rw [if_pos hLen, packValue_eq]
  · have hLength := packedVal_length host attr.val_
    have hZero : attr.val_.len_ = 0 := by
      have hLen : ¬ attr.val_.len_ > 0 := hLen
      omega
    have hNil : packedVal host attr.val_ = [] :=
      List.length_eq_zero_iff.mp (hLength.trans hZero)
    rw [if_neg hLen, hNil, write_nil]

/- The header of an attribute in memory. -/
def withHeader
    (host : ByteOrder)
    (attr : NRAttribute)
    (current : Nat)
    (mem : Memory) : Memory :=
  Memory.write
    (Memory.write
      (Memory.write
        (Memory.write mem current
          (host.store (n := 4)
            (host.toNetwork (n := 4) attr.getKey)))
        (current + 4) [attr.getType])
      (current + 5) [attr.getOp])
    (current + 6)
    (host.store (n := 2)
      (host.toNetwork (n := 2)
        (BitVec.ofNat 16 attr.getLen)))

theorem packAttr_eq :
    packAttr host attr current mem =
      Memory.write (withHeader host attr current mem)
        (current + 8) (packedVal host attr.val_) :=
  packAttr_value

theorem packAttr_outside
    (hOutside :
      i < current ∨ current + 8 + attr.getLen ≤ i) :
    packAttr host attr current mem i = mem i := by
  have hVal : (packedVal host attr.val_).length = attr.getLen :=
    packedVal_length host attr.val_
  rw [packAttr_eq, withHeader]
  rw [Memory.write_outside (by rw [hVal]; omega)]
  rw [Memory.write_outside
    (by rw [host.store_length]; omega)]
  rw [Memory.write_outside
    (by rw [List.length_singleton]; omega)]
  rw [Memory.write_outside
    (by rw [List.length_singleton]; omega)]
  rw [Memory.write_outside
    (by rw [host.store_length]; omega)]

theorem read_store
    {n : Nat}
    {x : BitVec (8 * n)} :
    Memory.read (Memory.write mem current (host.store x))
        current n =
      host.store x := by
  have hRead :=
    @Memory.read_write mem (host.store x) current
  rwa [host.store_length] at hRead

theorem write_single
    {b : Byte} :
    Memory.write mem current [b] current = b := by
  simp [Memory.write]

theorem packAttr_packed :
    Packed host (packAttr host attr current mem) current
      attr := by
  have hVal : (packedVal host attr.val_).length = attr.getLen :=
    packedVal_length host attr.val_
  rw [packAttr_eq, withHeader]
  constructor
  case key =>
    rw [Memory.read_write_apart (by omega),
      Memory.read_write_apart (by omega),
      Memory.read_write_apart (by omega),
      Memory.read_write_apart (by omega)]
    exact read_store
  case type =>
    rw [Memory.write_outside (by omega),
      Memory.write_outside (by omega),
      Memory.write_outside (by omega)]
    exact write_single
  case op =>
    rw [Memory.write_outside (by omega),
      Memory.write_outside (by omega)]
    exact write_single
  case len =>
    rw [Memory.read_write_apart (by omega)]
    exact read_store
  case val =>
    rw [← hVal]
    exact Memory.read_write

theorem PackAttrs_size :
    (PackAttrs host itr current mem).2 =
      CalculateSize itr := by
  induction itr generalizing current mem with
  | nil => rfl
  | cons attr rest ih =>
      rw [PackAttrs, CalculateSize, ih]

/- Nothing outside the calculated size is written. -/
theorem PackAttrs_outside
    (hOutside :
      i < current ∨ current + CalculateSize itr ≤ i) :
    (PackAttrs host itr current mem).1 i = mem i := by
  induction itr generalizing current mem with
  | nil => rfl
  | cons attr rest ih =>
      have hStride := @stride_le attr
      rw [CalculateSize] at hOutside
      rw [PackAttrs, ih (by omega)]
      exact packAttr_outside (by omega)

/- Packing later attributes keeps the ones before. -/
theorem PackAttrs_packed :
    PackedFrom host (PackAttrs host itr current mem).1
      current itr := by
  induction itr generalizing current mem with
  | nil => trivial
  | cons attr rest ih =>
      constructor
      · have hHere :
            Packed host (packAttr host attr current mem)
              current attr :=
          packAttr_packed
        have hStride := @stride_le attr
        apply hHere.congr
        intro i hLess
        rw [PackAttrs]
        exact PackAttrs_outside (by omega)
      · exact ih

end Ns2

------------------------------------------------------------
-- Unpacking
------------------------------------------------------------

namespace Ns2

open NRValue

variable {host : ByteOrder}
variable {mem : Memory}
variable {attr : NRAttribute}
variable {itr : NRAttrVec}
variable {current : Nat}

theorem getLen_le : attr.getLen ≤ INT16_MAX := by
  rcases attr with
    ⟨key, op, val⟩
  cases val with
  | INT32 v => exact (by decide : 4 ≤ INT16_MAX)
  | FLOAT32 v => exact (by decide : 4 ≤ INT16_MAX)
  | FLOAT64 v => exact (by decide : 8 ≤ INT16_MAX)
  | STRING s =>
      have hShort := s.short
      rw [← CString.bytes_length] at hShort
      exact hShort
  | BLOB b => exact b.short

theorem Packed.attr_len
    (hPacked : Packed host mem current attr) :
    (ntoh host 2 mem (current + 6)).toNat = attr.getLen := by
  have hShort := @getLen_le attr
  rw [ntoh_eq hPacked.len, BitVec.toNat_ofNat]
  exact Nat.mod_eq_of_lt
    (Nat.lt_of_le_of_lt hShort (by decide))

theorem load_eq
    {n pos : Nat}
    {x : BitVec (8 * n)}
    (hRead : Memory.read mem pos n = host.store x) :
    host.load n (Memory.read mem pos n) = x := by
  rw [hRead, ByteOrder.load_store]

/- The bytes of a value, read as what they are. -/
theorem unpackVal_packed
    {val : NRValue}
    {pos : Nat}
    (hVal :
      Memory.read mem pos val.len_ = packedVal host val) :
    unpackVal host mem val.type_ pos val.len_ =
      some [val] := by
  cases val with
  | INT32 v =>
      change some [INT32 (ntoh host 4 mem pos)] = _
      rw [show ntoh host 4 mem pos = v from ntoh_eq hVal]
  | FLOAT32 v =>
      change some
        [FLOAT32 (host.load 4 (Memory.read mem pos 4))] = _
      rw [load_eq (n := 4) (x := v) hVal]
  | FLOAT64 v =>
      change some
        [FLOAT64 (host.load 8 (Memory.read mem pos 8))] = _
      rw [load_eq (n := 8) (x := v) hVal]
  | STRING s =>
      change (newString mem pos).map _ = _
      rw [newString_spec hVal]
      rfl
  | BLOB b =>
      change (newBlob mem pos b.bytes.length).map _ = _
      rw [newBlob_spec hVal]
      rfl

theorem unpackAttr_packed
    (hPacked : Packed host mem current attr) :
    unpackAttr host mem current = some [attr] := by
  have hVal :
      unpackVal host mem attr.getType (current + 8)
        attr.getLen = some [attr.val_] :=
    unpackVal_packed hPacked.val
  rw [unpackAttr, hPacked.attr_len, hPacked.type, hPacked.op,
    ntoh_eq hPacked.key]
  simp only [hVal]
  rfl

theorem unpackFrom_packed
    (hPacked : PackedFrom host mem current itr) :
    unpackFrom host mem itr.length current = some itr := by
  induction itr generalizing current with
  | nil => rfl
  | cons attr rest ih =>
      rcases hPacked with
        ⟨hFirst, hRest⟩
      rw [List.length_cons, unpackFrom,
        unpackAttr_packed hFirst, hFirst.attr_len, ih hRest]
      rfl

/- Packing fills what was calculated, and is undone. -/
theorem attributes_round_trip
    (host : ByteOrder)
    (attr_vec : NRAttrVec)
    (start_pos : Nat)
    (mem heap : Memory) :
    (PackAttrs host attr_vec start_pos mem).2 =
        CalculateSize attr_vec ∧
      (∀ i, i < start_pos ∨
          start_pos + CalculateSize attr_vec ≤ i →
        (PackAttrs host attr_vec start_pos mem).1 i =
          mem i) ∧
      (∀ pkt : Memory,
        (∀ i < CalculateSize attr_vec,
          pkt (sizeof_hdr_diff + i) =
            (PackAttrs host attr_vec start_pos mem).1
              (start_pos + i)) →
        UnpackAttrs host pkt attr_vec.length =
          some attr_vec) ∧
      CopyAttrs host heap attr_vec = some attr_vec := by
  refine ⟨PackAttrs_size, ?_, ?_, ?_⟩
  · intro i hOutside
    exact PackAttrs_outside hOutside
  · intro pkt hSame
    have hPacked :
        PackedFrom host pkt sizeof_hdr_diff attr_vec :=
      PackAttrs_packed.congr hSame
    exact unpackFrom_packed hPacked
  · exact CopyAttrs_spec host heap attr_vec

end Ns2
