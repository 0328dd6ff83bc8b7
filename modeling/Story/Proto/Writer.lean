/-
# Story.Proto.Writer -- generated `Marshal` functions

A generated `Marshal` computes the size of the message, allocates as many bytes and fills them
from the end: the index starts at the length of the slice and goes down by what is written. A
message inside another is written into the part of the slice below the index, and its length
is put in front of it afterwards. Only the number of bytes written is returned, and the slice
is cut to it, which gives the message when the size was exact and something else otherwise.

`Writes x bs` says that `x` fills the bytes below the index with `bs`. It is closed under
sequencing, the fields of a message coming out in reverse. A panic is an error.
-/
import Story.Proto.Schema
import Mathlib.Data.Nat.Log

namespace Story.Proto

open Story.Effect

/-! ## Sizes -/

/-- The generated `sov`: `(math_bits.Len64(x|1) + 6) / 7`. -/
def sov (x : UInt64) : Nat := ((x ||| 1).toNat.log2 + 1 + 6) / 7

theorem length_varintLoop {k n : Nat} (h : n < 2 ^ (7 * (k + 1))) :
    (varintLoop k n).length = (n.log2 + 1 + 6) / 7 := by
  have hsmall : ∀ {n : Nat}, n < 128 → (n.log2 + 1 + 6) / 7 = 1 := by
    intro n hn
    have hlog : n.log2 < 7 := by
      by_cases hzero : n = 0
      · subst hzero
        decide
      · exact (Nat.log2_lt hzero).mpr hn
    omega
  induction k generalizing n with
  | zero =>
      rw [hsmall (by simpa using h)]
      rfl
  | succ k ih =>
      by_cases hlt : n < 128
      · rw [varintLoop_of_lt hlt, hsmall hlt]
        rfl
      · have hdiv : n / 128 < 2 ^ (7 * (k + 1)) := by
          rw [Nat.div_lt_iff_lt_mul (by decide)]
          calc n < 2 ^ (7 * (k + 1 + 1)) := h
            _ = 2 ^ (7 * (k + 1)) * 128 := by rw [Nat.mul_succ, Nat.pow_add]
        have hlog : n.log2 = (n / 128).log2 + 7 := by
          rw [Nat.log2_eq_log_two, Nat.log2_eq_log_two, show 128 = 2 ^ 7 from rfl,
            Nat.log_div_base_pow]
          have : 7 ≤ Nat.log 2 n := Nat.le_log_of_pow_le (by decide) (by omega)
          omega
        rw [varintLoop, if_neg hlt, List.length_cons, ih hdiv, hlog]
        omega

/-- The lowest bit is one bit of any number, and the only one of zero. -/
theorem log2_or_one (n : Nat) : (n ||| 1).log2 = n.log2 := by
  by_cases hzero : n = 0
  · subst hzero
    decide
  · obtain ⟨hle, hlt⟩ := (Nat.log2_eq_iff hzero).mp rfl
    have hge : n ≤ n ||| 1 := Nat.left_le_or
    refine (Nat.log2_eq_iff (by omega)).mpr ⟨hle.trans hge, Nat.or_lt_two_pow hlt ?_⟩
    exact Nat.one_lt_two_pow (Nat.succ_ne_zero _)

/-- **`sov` is the length of a varint.** -/
theorem length_varint (v : UInt64) : (varint v).length = sov v := by
  have hv := v.toNat_lt
  have hor : (v ||| 1).toNat.log2 = v.toNat.log2 := by
    rw [UInt64.toNat_or]
    exact log2_or_one v.toNat
  rw [varint, length_varintLoop (by omega), sov, hor]

/-! ## Writers -/

/-- The index and the slice. -/
structure Buffer where
  i : Nat
  dAtA : List UInt8

/-- A piece of a generated `MarshalToSizedBuffer`. -/
abbrev Writer (α : Type) := EStateM String Buffer α

/-- `dAtA[offset] = b`. -/
def store (dAtA : List UInt8) (offset : Nat) (b : UInt8) : Except String (List UInt8) :=
  if offset < dAtA.length then .ok (dAtA.set offset b)
  else .error "runtime error: index out of range"

/-- The loop of `encodeVarint`, from `offset` upwards. -/
def encodeVarintLoop : (fuel : Nat) → (dAtA : List UInt8) → (offset : Nat) → (v : UInt64) →
    Except String (List UInt8)
  | 0, dAtA, offset, v => store dAtA offset v.toUInt8
  | fuel + 1, dAtA, offset, v =>
      if 1 <<< (7 : UInt64) ≤ v then do
        let dAtA ← store dAtA offset (v &&& 0x7f ||| 0x80).toUInt8
        encodeVarintLoop fuel dAtA (offset + 1) (v >>> 7)
      else store dAtA offset v.toUInt8

namespace Writer

/-- `i = encodeVarint(dAtA, i, v)`. A word has ten digits at most. -/
def encodeVarint (v : UInt64) : Writer Unit := do
  let s ← get
  if s.i < sov v then throw "runtime error: index out of range"
  else
    match encodeVarintLoop 9 s.dAtA (s.i - sov v) v with
    | .error e => throw e
    | .ok dAtA => set (⟨s.i - sov v, dAtA⟩ : Buffer)

/-- `i--; dAtA[i] = b`. -/
def putByte (b : UInt8) : Writer Unit := do
  let s ← get
  if s.i = 0 then throw "runtime error: index out of range"
  else
    match store s.dAtA (s.i - 1) b with
    | .error e => throw e
    | .ok dAtA => set (⟨s.i - 1, dAtA⟩ : Buffer)

/-- `i -= len(bs); copy(dAtA[i:], bs)`. -/
def copy (bs : List UInt8) : Writer Unit := do
  let s ← get
  if s.i < bs.length then throw "runtime error: slice bounds out of range"
  else
    let i := s.i - bs.length
    set (⟨i, s.dAtA.take i ++ bs.take (s.dAtA.length - i) ++ s.dAtA.drop (i + bs.length)⟩ : Buffer)

/-- `size := M.MarshalToSizedBuffer(dAtA[:i]); i -= size; i = encodeVarint(dAtA, i, size)`. -/
def nested (x : Writer Unit) : Writer Unit := do
  let s ← get
  match x.run ⟨s.i, s.dAtA.take s.i⟩ with
  | .error e _ => throw e
  | .ok _ t => do
      set (⟨t.i, t.dAtA ++ s.dAtA.drop s.i⟩ : Buffer)
      encodeVarint (UInt64.ofNat (s.i - t.i))

/-- `for iNdEx := len(xs) - 1; iNdEx >= 0; iNdEx--`. -/
def eachReverse {α : Type} (f : α → Writer Unit) : List α → Writer Unit
  | [] => pure ()
  | x :: xs => do
      eachReverse f xs
      f x

/-- `x` fills the bytes below the index with `bs`, and leaves the others. -/
def Writes (x : Writer Unit) (bs : List UInt8) : Prop :=
  ∀ below hole above, hole.length = bs.length →
    Returns x ⟨(below ++ hole).length, below ++ hole ++ above⟩ ()
      ⟨below.length, below ++ bs ++ above⟩

theorem Writes.pure : Writes (pure ()) [] := by
  intro below hole above hlen
  obtain rfl := List.length_eq_zero_iff.mp hlen
  simp only [List.append_nil]
  exact returns_pure.mpr ⟨rfl, rfl⟩

/-- What is written later stands in front. -/
theorem Writes.bind {x y : Writer Unit} {bs bs' : List UInt8} (hx : Writes x bs)
    (hy : Writes y bs') : Writes (do x; y) (bs' ++ bs) := by
  intro below hole above hlen
  rw [List.length_append] at hlen
  obtain ⟨hole', hole, hhole, hhole', rfl⟩ :
      ∃ a b : List UInt8, a.length = bs'.length ∧ b.length = bs.length ∧ hole = a ++ b := by
    refine ⟨hole.take bs'.length, hole.drop bs'.length, ?_, ?_, (List.take_append_drop _ _).symm⟩
    · rw [List.length_take]
      omega
    · rw [List.length_drop]
      omega
  have h₁ := hx (below ++ hole') hole above hhole'
  have h₂ := hy below hole' (bs ++ above) hhole
  simp only [List.append_assoc] at h₁ h₂ ⊢
  exact returns_bind.mpr ⟨(), _, h₁, h₂⟩

theorem Writes.of_ite {x : Writer Unit} {bs : List UInt8} {p : Prop} [Decidable p]
    (h : p → Writes x bs) : Writes (if p then x else Pure.pure ()) (if p then bs else []) := by
  split
  next hp => exact h hp
  · exact .pure

theorem store_append (below above : List UInt8) (old b : UInt8) :
    store (below ++ old :: above) below.length b = .ok (below ++ b :: above) := by
  rw [store, if_pos (by simp), List.set_append_right _ _ (Nat.le_refl _), Nat.sub_self]
  rfl

theorem writes_putByte (b : UInt8) : Writes (putByte b) [b] := by
  intro below hole above hlen
  obtain ⟨old, rfl⟩ := List.length_eq_one_iff.mp hlen
  refine returns_bind.mpr ⟨_, _, returns_get.mpr ⟨rfl, rfl⟩, ?_⟩
  simp only [List.append_assoc, List.singleton_append, List.length_append, List.length_singleton,
    Nat.succ_ne_zero, if_false, Nat.add_sub_cancel, store_append]
  exact returns_set.mpr rfl

theorem writes_copy (bs : List UInt8) : Writes (copy bs) bs := by
  intro below hole above hlen
  refine returns_bind.mpr ⟨_, _, returns_get.mpr ⟨rfl, rfl⟩, ?_⟩
  have hi : (below ++ hole).length - bs.length = below.length := by
    rw [List.length_append]
    omega
  simp only [hi]
  rw [if_neg (by rw [List.length_append]; omega), returns_set]
  have htake : bs.take ((below ++ hole ++ above).length - below.length) = bs := by
    apply List.take_of_length_le
    simp only [List.length_append]
    omega
  have hdrop : (below ++ hole ++ above).drop (below.length + bs.length) = above := by
    rw [← hlen, ← List.length_append, List.drop_left]
  rw [htake, hdrop, List.append_assoc below hole, List.take_left]

/-- The digits of a word. -/
theorem toUInt8_eq (v : UInt64) : v.toUInt8 = UInt8.ofNat v.toNat := by
  apply UInt8.toNat_inj.mp
  simp

theorem toUInt8_moreDigit (v : UInt64) :
    (v &&& 0x7f ||| 0x80).toUInt8 = UInt8.ofNat (v.toNat % 128 + 128) := by
  rw [toUInt8_eq, UInt64.toNat_or, UInt64.toNat_and]
  have hand : v.toNat &&& (0x7f : UInt64).toNat = v.toNat % 128 :=
    Nat.and_two_pow_sub_one_eq_mod v.toNat 7
  have hor : v.toNat % 128 ||| 2 ^ 7 = v.toNat % 128 + 2 ^ 7 := by
    rw [Nat.or_comm, Nat.add_comm]
    exact (Nat.two_pow_add_eq_or_of_lt (Nat.mod_lt v.toNat (show 0 < 2 ^ 7 by decide)) 1).symm
  rw [hand]
  exact congrArg UInt8.ofNat hor

/-- **The writing loop** leaves the digits of `v` from `offset` on. -/
theorem encodeVarintLoop_eq {k : Nat} {v : UInt64} (below hole above : List UInt8)
    (hlen : hole.length = (varintLoop k v.toNat).length) :
    encodeVarintLoop k (below ++ hole ++ above) below.length v
      = .ok (below ++ varintLoop k v.toNat ++ above) := by
  induction k generalizing v below hole with
  | zero =>
      obtain ⟨old, rfl⟩ := List.length_eq_one_iff.mp hlen
      rw [encodeVarintLoop, List.append_assoc, List.singleton_append, store_append, toUInt8_eq,
        varintLoop, List.append_assoc, List.singleton_append]
  | succ k ih =>
      by_cases hlt : v.toNat < 128
      · have hstop : ¬ 1 <<< (7 : UInt64) ≤ v := by
          rw [UInt64.le_iff_toNat_le]
          exact Nat.not_le.mpr hlt
        rw [varintLoop_of_lt hlt] at hlen ⊢
        obtain ⟨old, rfl⟩ := List.length_eq_one_iff.mp hlen
        rw [encodeVarintLoop, if_neg hstop, List.append_assoc, List.singleton_append, store_append,
          toUInt8_eq, List.append_assoc, List.singleton_append]
      · have hgo : 1 <<< (7 : UInt64) ≤ v := by
          rw [UInt64.le_iff_toNat_le]
          exact Nat.not_lt.mp hlt
        have hshift : (v >>> 7).toNat = v.toNat / 128 := by
          rw [UInt64.toNat_shiftRight]
          exact Nat.shiftRight_eq_div_pow v.toNat 7
        rw [varintLoop, if_neg hlt] at hlen ⊢
        rw [← hshift] at hlen ⊢
        cases hole with
        | nil => cases hlen
        | cons old hole =>
            have hrest := ih (below ++ [UInt8.ofNat (v.toNat % 128 + 128)]) hole
              (Nat.succ.inj hlen)
            rw [List.length_append, List.length_singleton] at hrest
            simp only [List.append_assoc, List.singleton_append] at hrest
            rw [encodeVarintLoop, if_pos hgo, List.append_assoc, List.cons_append, store_append,
              toUInt8_moreDigit, List.append_assoc, List.cons_append]
            exact hrest

theorem writes_encodeVarint (v : UInt64) : Writes (encodeVarint v) (varint v) := by
  intro below hole above hlen
  refine returns_bind.mpr ⟨_, _, returns_get.mpr ⟨rfl, rfl⟩, ?_⟩
  have hi : (below ++ hole).length - sov v = below.length := by
    rw [List.length_append, ← length_varint]
    omega
  simp only [hi]
  rw [if_neg (by rw [List.length_append, ← length_varint]; omega)]
  have hloop : encodeVarintLoop 9 (below ++ hole ++ above) below.length v
      = .ok (below ++ varint v ++ above) := encodeVarintLoop_eq below hole above hlen
  rw [hloop]
  exact returns_set.mpr rfl

/-- A message inside another stands behind its length. -/
theorem Writes.nested {x : Writer Unit} {bs : List UInt8} (h : Writes x bs) :
    Writes (nested x) (varint (UInt64.ofNat bs.length) ++ bs) := by
  intro below hole above hlen
  rw [List.length_append] at hlen
  obtain ⟨front, hole, hfront, hhole, rfl⟩ :
      ∃ a b : List UInt8, a.length = (varint (UInt64.ofNat bs.length)).length ∧
        b.length = bs.length ∧ hole = a ++ b := by
    refine ⟨hole.take (hole.length - bs.length), hole.drop (hole.length - bs.length), ?_, ?_,
      (List.take_append_drop _ _).symm⟩
    · rw [List.length_take]
      omega
    · rw [List.length_drop]
      omega
  refine returns_bind.mpr ⟨_, _, returns_get.mpr ⟨rfl, rfl⟩, ?_⟩
  have hx := h (below ++ front) hole [] hhole
  rw [List.append_nil, List.append_nil, List.append_assoc below] at hx
  rw [returns_iff] at hx
  simp only [List.take_left, List.drop_left, hx]
  refine returns_bind.mpr ⟨(), _, returns_set.mpr rfl, ?_⟩
  have hsize : (below ++ (front ++ hole)).length - (below ++ front).length = bs.length := by
    simp only [List.length_append]
    omega
  rw [hsize]
  have hv := writes_encodeVarint (UInt64.ofNat bs.length) below front (bs ++ above) hfront
  simpa only [List.append_assoc] using hv

theorem Writes.eachReverse {α : Type} {f : α → Writer Unit} {g : α → List UInt8} {xs : List α}
    (h : ∀ x ∈ xs, Writes (f x) (g x)) : Writes (eachReverse f xs) (xs.flatMap g) := by
  induction xs with
  | nil => exact .pure
  | cons x xs ih =>
      obtain ⟨hx, hxs⟩ := List.forall_mem_cons.mp h
      exact (ih hxs).bind hx

/-! ## Fields -/

/-- A tag, its last byte first. -/
def putTag (t : List UInt8) : Writer Unit := eachReverse putByte t

/-- `if v != 0`, a varint and its tag. -/
def optVarint (t : List UInt8) (v : UInt64) : Writer Unit :=
  if v ≠ 0 then do
    encodeVarint v
    putTag t
  else pure ()

/-- Bytes, their length and the tag. -/
def putBytes (t bs : List UInt8) : Writer Unit := do
  copy bs
  encodeVarint (UInt64.ofNat bs.length)
  putTag t

/-- `if len(bs) > 0`, bytes, their length and the tag. -/
def optBytes (t bs : List UInt8) : Writer Unit :=
  if 0 < bs.length then putBytes t bs else pure ()

/-- A message, its length and the tag. -/
def putMessage (t : List UInt8) (x : Writer Unit) : Writer Unit := do
  nested x
  putTag t

/-- `if m != nil`, a message, its length and the tag. -/
def optMessage (t : List UInt8) : Option (Writer Unit) → Writer Unit
  | none => pure ()
  | some x => putMessage t x

variable {t bs : List UInt8}

theorem writes_putTag (t : List UInt8) : Writes (putTag t) t := by
  have h : Writes (eachReverse putByte t) (t.flatMap fun b => [b]) :=
    .eachReverse fun b _ => writes_putByte b
  rwa [List.flatMap_singleton'] at h

theorem writes_optVarint (num : Nat) (v : UInt64) (ht : varint (tag num 0) = t) :
    Writes (optVarint t v) (optVarintField num v) := by
  refine .of_ite fun _ => ?_
  rw [varintField, ht]
  exact (writes_encodeVarint v).bind (writes_putTag t)

theorem writes_putBytes (num : Nat) (bs : List UInt8) (ht : varint (tag num 2) = t) :
    Writes (putBytes t bs) (bytesField num bs) := by
  rw [bytesField, ht, ← List.append_assoc]
  exact (writes_copy bs).bind ((writes_encodeVarint _).bind (writes_putTag t))

theorem writes_optBytes (num : Nat) (bs : List UInt8) (ht : varint (tag num 2) = t) :
    Writes (optBytes t bs) (optBytesField num bs) :=
  .of_ite fun _ => writes_putBytes num bs ht

theorem Writes.putMessage {x : Writer Unit} (h : Writes x bs) (num : Nat)
    (ht : varint (tag num 2) = t) :
    Writes (putMessage t x) (bytesField num bs) := by
  rw [bytesField, ht]
  exact h.nested.bind (writes_putTag t)

end Writer

section Lengths

variable (num : Nat)

theorem length_varintField (v : UInt64) :
    (varintField num v).length = (varint (tag num 0)).length + sov v := by
  rw [varintField, List.length_append, length_varint v]

theorem length_optVarintField (v : UInt64) :
    (optVarintField num v).length = if v ≠ 0 then (varint (tag num 0)).length + sov v else 0 := by
  rw [optVarintField]
  split
  · exact length_varintField num v
  · rfl

theorem length_bytesField (bs : List UInt8) :
    (bytesField num bs).length
      = (varint (tag num 2)).length + bs.length + sov (UInt64.ofNat bs.length) := by
  rw [bytesField, List.length_append, List.length_append, length_varint (UInt64.ofNat bs.length)]
  omega

theorem length_optBytesField (bs : List UInt8) :
    (optBytesField num bs).length = if 0 < bs.length then
      (varint (tag num 2)).length + bs.length + sov (UInt64.ofNat bs.length) else 0 := by
  rw [optBytesField]
  split
  · exact length_bytesField num bs
  · rfl

end Lengths

/-- The generated `Marshal`, from `Size` and `MarshalToSizedBuffer`. -/
def marshal (size : Nat) (x : Writer Unit) : Except String (List UInt8) :=
  match x.run ⟨size, List.replicate size 0⟩ with
  | .ok _ s => .ok (s.dAtA.take (s.dAtA.length - s.i))
  | .error e _ => .error e

/-- **With the exact size, `Marshal` returns what is written.** -/
theorem Writer.Writes.marshal_eq {x : Writer Unit} {bs : List UInt8} {size : Nat}
    (h : Writer.Writes x bs) (hsize : bs.length = size) : marshal size x = .ok bs := by
  have hrun := h [] (List.replicate size 0) [] (by rw [List.length_replicate, hsize])
  simp only [List.nil_append, List.append_nil, List.length_replicate, List.length_nil] at hrun
  rw [returns_iff] at hrun
  rw [marshal, hrun]
  simp

end Story.Proto
