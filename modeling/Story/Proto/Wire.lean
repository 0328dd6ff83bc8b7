/-
# Story.Proto.Wire -- the protobuf wire format, as generated Go code reads it

A message is a sequence of fields. A field is a tag, which holds its number and its wire
type, and a value: a varint of up to ten bytes, bytes with their length in front, four or
eight bytes, or a group of fields. Generated code goes over the bytes with an index of type
`int`. A `Reader` is a piece of such code, with the index and the bytes from there on for its
state.

`Takes x bs a` says that `x` takes the bytes `bs` for `a`, whatever stands behind them, and
`Local x` that this is how `x` comes to all its results. Both are closed under sequencing, up
to the loop that skips a field whose number is not known.
-/
import Story.Effect.Basic

namespace Story.Proto

open Story.Effect

/-! ## Errors -/

/-- The errors of generated code. `other` carries the text of a formatted error. -/
inductive WireError
  | intOverflow
  | unexpectedEOF
  | invalidLength
  | unexpectedEndOfGroup
  | other (msg : String)
  deriving DecidableEq, Repr

/-! ## Varints -/

/-- The loop that reads a varint: seven bits of every byte, up to one without the high bit.
Bits above the 64th are shifted out. -/
def readVarint : (shift : Nat) → (acc : UInt64) → List UInt8 →
    Except WireError (UInt64 × List UInt8)
  | shift, _, [] => if 64 ≤ shift then .error .intOverflow else .error .unexpectedEOF
  | shift, acc, b :: rest =>
      if 64 ≤ shift then .error .intOverflow
      else
        let acc := acc ||| ((b &&& 0x7F).toUInt64 <<< UInt64.ofNat shift)
        if b < 0x80 then .ok (acc, rest) else readVarint (shift + 7) acc rest

/-- The digits of `n` to the base 128, the last one first; at most `k + 1` of them. -/
def varintLoop : (k n : Nat) → List UInt8
  | 0, n => [UInt8.ofNat n]
  | k + 1, n =>
      if n < 128 then [UInt8.ofNat n]
      else UInt8.ofNat (n % 128 + 128) :: varintLoop k (n / 128)

/-- The varint of a 64-bit word. -/
def varint (v : UInt64) : List UInt8 := varintLoop 9 v.toNat

theorem varintLoop_of_lt {k n : Nat} (h : n < 128) : varintLoop k n = [UInt8.ofNat n] := by
  cases k with
  | zero => rfl
  | succ k => rw [varintLoop, if_pos h]

/-- One digit is added to the digits that have been read. -/
theorem toNat_addDigit {acc : UInt64} {d : UInt8} {shift x : Nat} (hs : shift < 64)
    (hacc : acc.toNat < 2 ^ shift) (hd : (d &&& 0x7F).toNat = x) (hx : x * 2 ^ shift < 2 ^ 64) :
    (acc ||| ((d &&& 0x7F).toUInt64 <<< UInt64.ofNat shift)).toNat = acc.toNat + x * 2 ^ shift := by
  have hshift : (UInt64.ofNat shift).toNat % 64 = shift := by
    rw [UInt64.toNat_ofNat']
    omega
  rw [UInt64.toNat_or, UInt64.toNat_shiftLeft, UInt8.toNat_toUInt64, hd, hshift, Nat.shiftLeft_eq,
    Nat.mod_eq_of_lt hx, Nat.or_comm, Nat.mul_comm, ← Nat.two_pow_add_eq_or_of_lt hacc,
    Nat.add_comm]

theorem toNat_and_low7 (b : UInt8) : (b &&& 0x7F).toNat = b.toNat % 128 := by
  rw [UInt8.toNat_and]
  exact Nat.and_two_pow_sub_one_eq_mod b.toNat 7

/-- The last digit ends the loop. -/
theorem readVarint_lastDigit {n shift : Nat} {acc : UInt64} (rest : List UInt8) (hlt : n < 128)
    (hs : shift < 64) (hn : n * 2 ^ shift < 2 ^ 64) (hacc : acc.toNat < 2 ^ shift) :
    readVarint shift acc (UInt8.ofNat n :: rest)
      = .ok (UInt64.ofNat (acc.toNat + n * 2 ^ shift), rest) := by
  have hb : (UInt8.ofNat n).toNat = n := by
    rw [UInt8.toNat_ofNat']
    omega
  have hlow : (UInt8.ofNat n &&& 0x7F).toNat = n := by
    rw [toNat_and_low7, hb]
    omega
  have hstop : UInt8.ofNat n < 0x80 := by
    rw [UInt8.lt_iff_toNat_lt, hb]
    exact hlt
  rw [readVarint, if_neg (by omega), if_pos hstop, ← toNat_addDigit hs hacc hlow hn,
    UInt64.ofNat_toNat]

/-- **The reading loop** adds the digits of `n` to those it has, and stops behind them. -/
theorem readVarint_varintLoop {k n shift : Nat} {acc : UInt64} (rest : List UInt8)
    (hs : shift < 64) (hk : n < 2 ^ (7 * (k + 1))) (hn : n * 2 ^ shift < 2 ^ 64)
    (hacc : acc.toNat < 2 ^ shift) :
    readVarint shift acc (varintLoop k n ++ rest)
      = .ok (UInt64.ofNat (acc.toNat + n * 2 ^ shift), rest) := by
  induction k generalizing n shift acc with
  | zero => exact readVarint_lastDigit rest (by simpa using hk) hs hn hacc
  | succ k ih =>
      by_cases hlt : n < 128
      · rw [varintLoop_of_lt hlt]
        exact readVarint_lastDigit rest hlt hs hn hacc
      · have hb : (UInt8.ofNat (n % 128 + 128)).toNat = n % 128 + 128 := by
          rw [UInt8.toNat_ofNat']
          omega
        have hlow : (UInt8.ofNat (n % 128 + 128) &&& 0x7F).toNat = n % 128 := by
          rw [toNat_and_low7, hb]
          omega
        have hgo : ¬ UInt8.ofNat (n % 128 + 128) < 0x80 := by
          rw [UInt8.lt_iff_toNat_lt, hb]
          exact Nat.not_lt.mpr (Nat.le_add_left 128 _)
        have hpow : 2 ^ (shift + 7) = 2 ^ shift * 128 := by rw [Nat.pow_add]
        have hdigit : n % 128 * 2 ^ shift < 2 ^ 64 :=
          lt_of_le_of_lt (Nat.mul_le_mul_right _ (Nat.mod_le n 128)) hn
        have hsum := toNat_addDigit hs hacc hlow hdigit
        have hsplit : n = 128 * (n / 128) + n % 128 := (Nat.div_add_mod n 128).symm
        -- a digit is left, so the shift has not reached the last bits
        have hs' : shift + 7 < 64 := by
          by_contra hge
          have : 2 ^ 64 ≤ 2 ^ (shift + 7) := Nat.pow_le_pow_right (by decide) (by omega)
          have : 128 * 2 ^ shift ≤ n * 2 ^ shift := Nat.mul_le_mul_right _ (by omega)
          omega
        have hmul : n * 2 ^ shift = n / 128 * 2 ^ (shift + 7) + n % 128 * 2 ^ shift := by
          rw [hpow]
          conv_lhs => rw [hsplit]
          ring
        have hacc' : acc.toNat + n % 128 * 2 ^ shift < 2 ^ (shift + 7) := by
          have hle : n % 128 * 2 ^ shift ≤ 127 * 2 ^ shift :=
            Nat.mul_le_mul_right _ (by omega)
          rw [hpow]
          omega
        rw [varintLoop, if_neg hlt, List.cons_append, readVarint, if_neg (by omega), if_neg hgo]
        rw [ih hs' ?_ (by omega) (by rw [hsum]; exact hacc'), hsum]
        · rw [hmul, Nat.add_comm (n / 128 * _), Nat.add_assoc]
        · rw [Nat.div_lt_iff_lt_mul (by decide)]
          calc n < 2 ^ (7 * (k + 1 + 1)) := hk
            _ = 2 ^ (7 * (k + 1)) * 128 := by rw [Nat.mul_succ, Nat.pow_add]

/-- **A varint is read back**, and the bytes behind it are left. -/
theorem readVarint_varint (v : UInt64) (rest : List UInt8) :
    readVarint 0 0 (varint v ++ rest) = .ok (v, rest) := by
  have hv := v.toNat_lt
  rw [varint, readVarint_varintLoop rest (by decide) (by omega) (by omega) (by decide)]
  simp

/-- What a varint was read from is a stretch of bytes that reads the same in front of others. -/
theorem readVarint_eq_ok {shift : Nat} {acc v : UInt64} {bs rest : List UInt8}
    (h : readVarint shift acc bs = .ok (v, rest)) :
    ∃ pre, pre ≠ [] ∧ bs = pre ++ rest ∧
      ∀ rest', readVarint shift acc (pre ++ rest') = .ok (v, rest') := by
  induction bs generalizing shift acc with
  | nil =>
      rw [readVarint] at h
      split at h <;> cases h
  | cons b bs ih =>
      rw [readVarint] at h
      split at h
      · cases h
      next hshift =>
        split at h
        next hstop =>
          cases h
          refine ⟨[b], by simp, rfl, fun rest' => ?_⟩
          rw [List.singleton_append, readVarint, if_neg hshift, if_pos hstop]
        next hgo =>
          obtain ⟨pre, _, rfl, hpre⟩ := ih h
          refine ⟨b :: pre, by simp, rfl, fun rest' => ?_⟩
          rw [List.cons_append, readVarint, if_neg hshift, if_neg hgo]
          exact hpre rest'

/-! ## Readers -/

/-- `iNdEx`, and the bytes from there on. -/
structure Cursor where
  iNdEx : Nat
  rest : List UInt8

/-- `iNdEx += n`, which may lead past the end. -/
def Cursor.advance (c : Cursor) (n : Nat) : Cursor := ⟨c.iNdEx + n, c.rest.drop n⟩

/-- A piece of a generated `Unmarshal`. -/
abbrev Reader (α : Type) := EStateM WireError Cursor α

namespace Reader

def varint : Reader UInt64 := fun c =>
  match readVarint 0 0 c.rest with
  | .error e => .error e c
  | .ok (v, rest) => .ok v ⟨c.iNdEx + (c.rest.length - rest.length), rest⟩

/-- `dAtA[iNdEx:postIndex]`. A length from 2^63 on is a negative `int`, and so is an end of the
slice from 2^63 on. -/
def slice (byteLen : UInt64) : Reader (List UInt8) := do
  let c ← get
  if 2 ^ 63 ≤ byteLen.toNat then throw .invalidLength
  else if 2 ^ 63 ≤ c.iNdEx + byteLen.toNat then throw .invalidLength
  else if c.rest.length < byteLen.toNat then throw .unexpectedEOF
  else
    set (c.advance byteLen.toNat)
    pure (c.rest.take byteLen.toNat)

/-- Bytes behind their length. -/
def bytes : Reader (List UInt8) := do
  let byteLen ← varint
  slice byteLen

variable {α β : Type}

/-- `x` takes `bs` for `a`, in every slice that Go can hold and whatever stands behind. -/
def Takes (x : Reader α) (bs : List UInt8) (a : α) : Prop :=
  ∀ i rest, i + (bs ++ rest).length < 2 ^ 63 →
    Returns x ⟨i, bs ++ rest⟩ a ⟨i + bs.length, rest⟩

/-- Whatever `x` returns, it has taken some bytes for it. -/
def Local (x : Reader α) : Prop :=
  ∀ c a c', Returns x c a c' → ∃ bs, c.rest = bs ++ c'.rest ∧
    c'.iNdEx = c.iNdEx + bs.length ∧ Takes x bs a

theorem Takes.pure (a : α) : Takes (pure a : Reader α) [] a := by
  intro i rest _
  exact returns_pure.mpr ⟨rfl, rfl⟩

/-- No slice is longer than an `int` can say. -/
theorem Takes.of_length_lt {x : Reader α} {bs : List UInt8} {a : α}
    (h : bs.length < 2 ^ 63 → Takes x bs a) : Takes x bs a := by
  intro i rest hi
  refine h ?_ i rest hi
  rw [List.length_append] at hi
  omega

theorem Takes.bind {x : Reader α} {f : α → Reader β} {bs bs' : List UInt8} {a : α} {b : β}
    (hx : Takes x bs a) (hf : Takes (f a) bs' b) : Takes (x >>= f) (bs ++ bs') b := by
  intro i rest hi
  rw [List.append_assoc] at hi ⊢
  refine returns_bind.mpr ⟨a, _, hx i (bs' ++ rest) hi, ?_⟩
  have hlen : i + (bs ++ bs').length = i + bs.length + bs'.length := by
    rw [List.length_append, Nat.add_assoc]
  rw [hlen]
  apply hf
  rw [List.length_append] at hi
  omega

theorem Local.bind {x : Reader α} {f : α → Reader β} (hx : Local x) (hf : ∀ a, Local (f a)) :
    Local (x >>= f) := by
  intro c b c' h
  obtain ⟨a, d, ha, hb⟩ := returns_bind.mp h
  obtain ⟨bs, hrest, hindex, htakes⟩ := hx c a d ha
  obtain ⟨bs', hrest', hindex', htakes'⟩ := hf a d b c' hb
  refine ⟨bs ++ bs', ?_, ?_, htakes.bind htakes'⟩
  · rw [hrest, hrest', List.append_assoc]
  · rw [hindex', hindex, List.length_append, Nat.add_assoc]

theorem Local.pure (a : α) : Local (pure a : Reader α) := by
  intro c b c' h
  obtain ⟨rfl, rfl⟩ := returns_pure.mp h
  exact ⟨[], rfl, rfl, Takes.pure a⟩

theorem Local.throw (e : WireError) : Local (throw e : Reader α) :=
  fun _ _ _ h => absurd h returns_throw

theorem takes_varint_of {v : UInt64} {bs : List UInt8}
    (h : ∀ rest, readVarint 0 0 (bs ++ rest) = .ok (v, rest)) : Takes varint bs v := by
  intro i rest _
  have hlen : (bs ++ rest).length - rest.length = bs.length := by
    rw [List.length_append, Nat.add_sub_cancel]
  rw [returns_iff, EStateM.run, varint]
  simp only [h, hlen]

theorem takes_varint (v : UInt64) : Takes varint (Proto.varint v) v :=
  takes_varint_of (readVarint_varint v)

/-- A varint has at least one byte. -/
theorem returns_varint {c c' : Cursor} {v : UInt64} (h : Returns varint c v c') :
    ∃ bs, bs ≠ [] ∧ c.rest = bs ++ c'.rest ∧ c'.iNdEx = c.iNdEx + bs.length ∧
      ∀ rest, readVarint 0 0 (bs ++ rest) = .ok (v, rest) := by
  rw [returns_iff, EStateM.run, varint] at h
  split at h
  · cases h
  next v' rest hread =>
    obtain ⟨bs, hne, hrest, hbs⟩ := readVarint_eq_ok hread
    cases h
    refine ⟨bs, hne, hrest, ?_, hbs⟩
    rw [hrest, List.length_append, Nat.add_sub_cancel]

theorem local_varint : Local varint := by
  intro c v c' h
  obtain ⟨bs, _, hrest, hindex, hbs⟩ := returns_varint h
  exact ⟨bs, hrest, hindex, takes_varint_of hbs⟩

theorem takes_slice {byteLen : UInt64} {bs : List UInt8} (h : bs.length = byteLen.toNat) :
    Takes (slice byteLen) bs bs := by
  intro i rest hi
  rw [List.length_append] at hi
  refine returns_bind.mpr ⟨_, _, returns_get.mpr ⟨rfl, rfl⟩, ?_⟩
  have h₁ : ¬ 2 ^ 63 ≤ byteLen.toNat := by omega
  have h₂ : ¬ 2 ^ 63 ≤ i + byteLen.toNat := by omega
  have h₃ : ¬ (bs ++ rest).length < byteLen.toNat := by
    rw [List.length_append]
    omega
  simp only [if_neg h₁, if_neg h₂, if_neg h₃]
  refine returns_bind.mpr ⟨(), _, rfl, ?_⟩
  simp [Cursor.advance, ← h]

theorem local_slice (byteLen : UInt64) : Local (slice byteLen) := by
  intro c bs c' h
  obtain ⟨c₀, _, hget, h⟩ := returns_bind.mp h
  obtain ⟨rfl, rfl⟩ := returns_get.mp hget
  split at h
  · exact absurd h returns_throw
  split at h
  · exact absurd h returns_throw
  split at h
  · exact absurd h returns_throw
  next hlen =>
    obtain ⟨_, d, hset, h⟩ := returns_bind.mp h
    obtain ⟨rfl, rfl⟩ := returns_pure.mp h
    obtain rfl : c.advance byteLen.toNat = d := returns_set.mp hset
    have htake : (c.rest.take byteLen.toNat).length = byteLen.toNat := by
      rw [List.length_take]
      omega
    refine ⟨c.rest.take byteLen.toNat, (List.take_append_drop _ _).symm, ?_, takes_slice htake⟩
    rw [htake]
    rfl

/-- Bytes are read back behind their length. -/
theorem takes_bytes (bs : List UInt8) :
    Takes bytes (Proto.varint (UInt64.ofNat bs.length) ++ bs) bs := by
  refine .of_length_lt fun hlen => (takes_varint _).bind (takes_slice ?_)
  rw [List.length_append] at hlen
  rw [UInt64.toNat_ofNat', Nat.mod_eq_of_lt (by omega)]

theorem local_bytes : Local bytes := local_varint.bind local_slice

end Reader

/-! ## Skipping a field -/

namespace Reader

def jump (n : Nat) : Reader Unit := modify fun c => c.advance n

/-- The value of a field that is skipped, by its wire type: what is left of the `depth` of
groups that have been opened. -/
def skipValue (depth : Nat) (wireType : UInt64) : Reader Nat :=
  if wireType = 0 then do
    let _ ← varint
    pure depth
  else if wireType = 1 then do
    jump 8
    pure depth
  else if wireType = 2 then do
    let length ← varint
    if 2 ^ 63 ≤ length.toNat then throw .invalidLength
    else
      jump length.toNat
      pure depth
  else if wireType = 3 then pure (depth + 1)
  else if wireType = 4 then
    if depth = 0 then throw .unexpectedEndOfGroup else pure (depth - 1)
  else if wireType = 5 then do
    jump 4
    pure depth
  else throw (.other ("proto: illegal wireType " ++ toString wireType))

/-- A tag and its value. -/
def skipRound (depth : Nat) : Reader Nat := do
  let wire ← varint
  skipValue depth (wire &&& 7)

/-- The loop of the generated `skip` functions. It reads a byte in every round, so the length
of the slice is fuel enough; behind the end of the slice the next tag is the error that the
loop ends with. -/
def skipLoop : (fuel depth : Nat) → Reader Unit
  | 0, _ => throw .unexpectedEOF
  | fuel + 1, depth => do
      let depth ← skipRound depth
      let c ← get
      if 2 ^ 63 ≤ c.iNdEx then throw .invalidLength
      else if depth = 0 then pure ()
      else skipLoop fuel depth

/-- The default case of a generated `Unmarshal`: the field at the index is skipped. -/
def skip : Reader Unit := do
  let c ← get
  match (skipLoop c.rest.length 0).run ⟨0, c.rest⟩ with
  | .error e _ => throw e
  | .ok _ d =>
      if 2 ^ 63 ≤ c.iNdEx + d.iNdEx then throw .invalidLength
      else if c.rest.length < d.iNdEx then throw .unexpectedEOF
      else set (c.advance d.iNdEx)

/-- `x` has taken some bytes for what it returns, or has gone past the end of the slice. -/
def LocalOrPast (x : Reader α) : Prop :=
  ∀ c a c', Returns x c a c' →
    (∃ bs, c.rest = bs ++ c'.rest ∧ c'.iNdEx = c.iNdEx + bs.length ∧ Takes x bs a) ∨
    (c'.rest = [] ∧ c.iNdEx + c.rest.length < c'.iNdEx)

theorem Local.localOrPast {x : Reader α} (h : Local x) : LocalOrPast x :=
  fun c a c' hx => .inl (h c a c' hx)

/-- Who is past the end stays there. -/
theorem LocalOrPast.past {x : Reader α} (h : LocalOrPast x) {c c' : Cursor} {a : α}
    (hx : Returns x c a c') (hrest : c.rest = []) : c'.rest = [] ∧ c.iNdEx ≤ c'.iNdEx := by
  obtain ⟨bs, hbs, hindex, _⟩ | ⟨hnil, hpast⟩ := h c a c' hx
  · rw [hrest] at hbs
    exact ⟨(List.nil_eq_append_iff.mp hbs).2, by omega⟩
  · exact ⟨hnil, by omega⟩

theorem LocalOrPast.bind {x : Reader α} {f : α → Reader β} (hx : LocalOrPast x)
    (hf : ∀ a, LocalOrPast (f a)) : LocalOrPast (x >>= f) := by
  intro c b c' h
  obtain ⟨a, d, ha, hb⟩ := returns_bind.mp h
  obtain ⟨bs, hrest, hindex, htakes⟩ | ⟨hnil, hpast⟩ := hx c a d ha
  · obtain ⟨bs', hrest', hindex', htakes'⟩ | ⟨hnil, hpast⟩ := hf a d b c' hb
    · refine .inl ⟨bs ++ bs', ?_, ?_, htakes.bind htakes'⟩
      · rw [hrest, hrest', List.append_assoc]
      · rw [hindex', hindex, List.length_append, Nat.add_assoc]
    · refine .inr ⟨hnil, ?_⟩
      rw [hrest, List.length_append]
      omega
  · obtain ⟨hnil', hle⟩ := (hf a).past hb hnil
    exact .inr ⟨hnil', by omega⟩

theorem takes_jump {n : Nat} {bs : List UInt8} (h : bs.length = n) : Takes (jump n) bs () := by
  intro i rest _
  rw [jump, returns_modify]
  simp [Cursor.advance, ← h]

theorem localOrPast_jump (n : Nat) : LocalOrPast (jump n) := by
  intro c _ c' h
  rw [jump, returns_modify] at h
  obtain rfl : c.advance n = c' := h
  by_cases hlen : n ≤ c.rest.length
  · have htake : (c.rest.take n).length = n := by
      rw [List.length_take]
      omega
    refine .inl ⟨c.rest.take n, (List.take_append_drop _ _).symm, ?_, takes_jump htake⟩
    rw [htake]
    rfl
  · refine .inr ⟨List.drop_eq_nil_of_le (by omega), ?_⟩
    show c.iNdEx + c.rest.length < c.iNdEx + n
    omega

theorem localOrPast_skipValue (depth : Nat) (wireType : UInt64) :
    LocalOrPast (skipValue depth wireType) := by
  have hpure : ∀ d : Nat, LocalOrPast (pure d : Reader Nat) := fun d => (Local.pure d).localOrPast
  have hthrow : ∀ e, LocalOrPast (throw e : Reader Nat) := fun e => (Local.throw e).localOrPast
  have hjump : ∀ n d, LocalOrPast (jump n >>= fun _ => (pure d : Reader Nat)) :=
    fun n d => (localOrPast_jump n).bind fun _ => hpure d
  have hvarint := local_varint.localOrPast
  unfold skipValue
  repeat' split
  · exact hvarint.bind fun _ => hpure _
  · exact hjump _ _
  · refine hvarint.bind fun length => ?_
    split
    · exact hthrow _
    · exact hjump _ _
  · exact hpure _
  · exact hthrow _
  · exact hpure _
  · exact hjump _ _
  · exact hthrow _

/-- `bs` starts with a tag. -/
def Tagged (bs : List UInt8) : Prop :=
  ∃ wire bs₁ bs₂, bs₁ ≠ [] ∧ bs = bs₁ ++ bs₂ ∧
    ∀ rest, readVarint 0 0 (bs₁ ++ rest) = .ok (wire, rest)

theorem Tagged.ne_nil {bs : List UInt8} (h : Tagged bs) : bs ≠ [] := by
  obtain ⟨_, bs₁, bs₂, hne, rfl, _⟩ := h
  simp [hne]

theorem Tagged.append {bs : List UInt8} (h : Tagged bs) (bs' : List UInt8) :
    Tagged (bs ++ bs') := by
  obtain ⟨wire, bs₁, bs₂, hne, rfl, hread⟩ := h
  exact ⟨wire, bs₁, bs₂ ++ bs', hne, List.append_assoc bs₁ bs₂ bs', hread⟩

theorem returns_skipRound {depth d : Nat} {c c' : Cursor} (h : Returns (skipRound depth) c d c') :
    (∃ bs, Tagged bs ∧ c.rest = bs ++ c'.rest ∧ c'.iNdEx = c.iNdEx + bs.length ∧
      Takes (skipRound depth) bs d) ∨
    (c'.rest = [] ∧ c.iNdEx + c.rest.length < c'.iNdEx) := by
  obtain ⟨wire, c₁, hwire, hvalue⟩ := returns_bind.mp h
  obtain ⟨bs, hne, hrest, hindex, hread⟩ := returns_varint hwire
  obtain ⟨bs', hrest', hindex', htakes'⟩ | ⟨hnil, hpast⟩ :=
    localOrPast_skipValue depth (wire &&& 7) c₁ d c' hvalue
  · refine .inl ⟨bs ++ bs', ⟨wire, bs, bs', hne, rfl, hread⟩, ?_, ?_,
      (takes_varint_of hread).bind htakes'⟩
    · rw [hrest, hrest', List.append_assoc]
    · rw [hindex', hindex, List.length_append, Nat.add_assoc]
  · refine .inr ⟨hnil, ?_⟩
    rw [hrest, List.length_append]
    omega

/-- The loop skips `bs` with `depth` groups open. -/
def Skipped (depth : Nat) (bs : List UInt8) : Prop :=
  ∀ fuel, bs.length ≤ fuel → Takes (skipLoop fuel depth) bs ()

theorem Skipped.of_last {depth : Nat} {bs : List UInt8} (h : Takes (skipRound depth) bs 0)
    (hne : bs ≠ []) : Skipped depth bs := by
  intro fuel hfuel i rest hi
  have hpos : 0 < bs.length := List.length_pos_iff.mpr hne
  obtain ⟨fuel, rfl⟩ : ∃ k, fuel = k + 1 := ⟨fuel - 1, by omega⟩
  refine returns_bind.mpr ⟨0, _, h i rest hi, ?_⟩
  refine returns_bind.mpr ⟨_, _, returns_get.mpr ⟨rfl, rfl⟩, ?_⟩
  rw [List.length_append] at hi
  rw [if_neg (by show ¬ 2 ^ 63 ≤ i + bs.length; omega), if_pos rfl]
  exact returns_pure.mpr ⟨rfl, rfl⟩

theorem Skipped.of_more {depth depth' : Nat} {bs bs' : List UInt8}
    (h : Takes (skipRound depth) bs depth') (hne : bs ≠ []) (hdepth : depth' ≠ 0)
    (h' : Skipped depth' bs') : Skipped depth (bs ++ bs') := by
  intro fuel hfuel i rest hi
  have hpos : 0 < bs.length := List.length_pos_iff.mpr hne
  rw [List.length_append] at hfuel
  obtain ⟨fuel, rfl⟩ : ∃ k, fuel = k + 1 := ⟨fuel - 1, by omega⟩
  rw [List.append_assoc] at hi ⊢
  refine returns_bind.mpr ⟨depth', _, h i (bs' ++ rest) hi, ?_⟩
  refine returns_bind.mpr ⟨_, _, returns_get.mpr ⟨rfl, rfl⟩, ?_⟩
  rw [List.length_append] at hi
  rw [if_neg (by show ¬ 2 ^ 63 ≤ i + bs.length; omega), if_neg hdepth, List.length_append,
    ← Nat.add_assoc]
  exact h' fuel (by omega) (i + bs.length) rest (by omega)

/-- The loop has skipped something, or has gone past the end. -/
theorem returns_skipLoop {fuel depth : Nat} {c c' : Cursor} {u : Unit}
    (h : Returns (skipLoop fuel depth) c u c') :
    (∃ bs, Tagged bs ∧ c.rest = bs ++ c'.rest ∧ c'.iNdEx = c.iNdEx + bs.length ∧
      Skipped depth bs) ∨
    (c'.rest = [] ∧ c.iNdEx + c.rest.length < c'.iNdEx) := by
  induction fuel generalizing depth c with
  | zero => exact absurd h returns_throw
  | succ fuel ih =>
      obtain ⟨depth', c₁, hround, hget⟩ := returns_bind.mp h
      obtain ⟨_, _, hc, hmore⟩ := returns_bind.mp hget
      obtain ⟨rfl, rfl⟩ := returns_get.mp hc
      split at hmore
      · exact absurd hmore returns_throw
      split at hmore
      next hzero =>
        obtain ⟨-, rfl⟩ := returns_pure.mp hmore
        rw [hzero] at hround
        obtain ⟨bs, htag, hrest, hindex, htakes⟩ | hpast := returns_skipRound hround
        · exact .inl ⟨bs, htag, hrest, hindex, .of_last htakes htag.ne_nil⟩
        · exact .inr hpast
      next hdepth =>
        obtain ⟨bs, htag, hrest, hindex, htakes⟩ | ⟨hnil, hpast⟩ := returns_skipRound hround
        · obtain ⟨bs', _, hrest', hindex', hskipped⟩ | ⟨hnil, hpast⟩ := ih hmore
          · refine .inl ⟨bs ++ bs', htag.append bs', ?_, ?_,
              .of_more htakes htag.ne_nil hdepth hskipped⟩
            · rw [hrest, hrest', List.append_assoc]
            · rw [hindex', hindex, List.length_append, Nat.add_assoc]
          · refine .inr ⟨hnil, ?_⟩
            rw [hrest, List.length_append]
            omega
        · obtain ⟨bs', _, hrest', hindex', _⟩ | ⟨hnil', hpast'⟩ := ih hmore
          · rw [hnil] at hrest'
            exact .inr ⟨(List.nil_eq_append_iff.mp hrest').2, by omega⟩
          · exact .inr ⟨hnil', by omega⟩

/-- What the loop skips from the start of a slice is what a message skips. -/
theorem Skipped.takes_skip {bs : List UInt8} (h : Skipped 0 bs) : Takes skip bs () := by
  intro i rest hi
  refine returns_bind.mpr ⟨_, _, returns_get.mpr ⟨rfl, rfl⟩, ?_⟩
  rw [List.length_append] at hi
  have hfuel : bs.length ≤ (bs ++ rest).length := by
    rw [List.length_append]
    omega
  have hrun := h _ hfuel 0 rest (by rw [List.length_append]; omega)
  rw [returns_iff] at hrun
  simp only [hrun, Nat.zero_add]
  rw [List.length_append, if_neg (by omega), if_neg (by omega), returns_set]
  simp [Cursor.advance]

theorem returns_skip {c c' : Cursor} {u : Unit} (h : Returns skip c u c') :
    ∃ bs, Tagged bs ∧ c.rest = bs ++ c'.rest ∧ c'.iNdEx = c.iNdEx + bs.length ∧
      Takes skip bs () := by
  obtain ⟨_, _, hget, h⟩ := returns_bind.mp h
  obtain ⟨rfl, rfl⟩ := returns_get.mp hget
  split at h
  · exact absurd h returns_throw
  next d hrun =>
    split at h
    · exact absurd h returns_throw
    split at h
    · exact absurd h returns_throw
    next hlen =>
      obtain rfl : c.advance d.iNdEx = c' := returns_set.mp h
      obtain ⟨bs, htag, hrest, hindex, hskipped⟩ | ⟨-, hpast⟩ := returns_skipLoop hrun
      · have hd : d.iNdEx = bs.length := by simpa using hindex
        have hrest : c.rest = bs ++ d.rest := hrest
        refine ⟨bs, htag, ?_, ?_, hskipped.takes_skip⟩
        · rw [Cursor.advance, hd, hrest, List.drop_left]
        · rw [Cursor.advance, hd]
      · exact absurd hpast (by simpa using hlen)

end Reader

end Story.Proto
