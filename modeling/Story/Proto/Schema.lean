/-
# Story.Proto.Schema -- generated `Unmarshal` functions

The `Unmarshal` that is generated for a message is a loop over tags with one case for each
field. What differs between messages is the table of the cases, a `Schema`: the number of a
field, its name in errors, and what is done with its value. The loop is one function of it.

`Schema.Reads` says what the loop makes of a stretch of bytes, whatever stands behind it. It
is closed under concatenation, so a message is read back field by field. Fields whose numbers
are not in the table are read without effect, and whatever `Unmarshal` accepts it `Reads`, so
that the bytes of two messages one after the other are read as one message after the other.
-/
import Story.Proto.Wire

namespace Story.Proto

open Story.Effect

/-! ## Messages -/

/-- What is done with the value of a field. -/
inductive Setter (M : Type)
  | varint (put : UInt64 → M → M)
  | bytes (put : List UInt8 → M → Except WireError M)

/-- Bytes that are parsed and put into a field. -/
def Setter.parsed {M α : Type} (parse : List UInt8 → Except WireError α) (put : α → M → M) :
    Setter M :=
  .bytes fun bs m => (parse bs).map fun a => put a m

/-- The bytes of a string. -/
def utf8 (s : String) : List UInt8 := s.toUTF8.data.toList

theorem utf8_injective : Function.Injective utf8 := by
  intro s t h
  exact String.toByteArray_inj.mp (ByteArray.ext (Array.toList_inj.mp h))

/-- Bytes that are put into a field as they are. -/
def Setter.plain {M : Type} (put : List UInt8 → M → M) : Setter M := .parsed .ok put

structure Field (M : Type) where
  num : Int
  name : String
  setter : Setter M

/-- The fields of a message, as the cases of its `Unmarshal`. -/
structure Schema (M : Type) where
  name : String
  fields : List (Field M)

def Schema.field {M : Type} (S : Schema M) (num : Int) : Option (Field M) :=
  S.fields.find? fun f => f.num = num

/-- `int32(wire >> 3)`. -/
def fieldNum (wire : UInt64) : Int := ((wire >>> 3).toNat : Int).bmod (2 ^ 32)

section Schema

variable {M : Type}

def Field.wrongWireType (f : Field M) (wireType : UInt64) : WireError :=
  .other ("proto: wrong wireType = " ++ toString wireType ++ " for field " ++ f.name)

/-- The case of a field. -/
def Field.read (f : Field M) (wireType : UInt64) (m : M) : Reader M :=
  match f.setter with
  | .varint put =>
      if wireType ≠ 0 then throw (f.wrongWireType wireType)
      else do
        let v ← Reader.varint
        pure (put v m)
  | .bytes put =>
      if wireType ≠ 2 then throw (f.wrongWireType wireType)
      else do
        let bs ← Reader.bytes
        match put bs m with
        | .error e => throw e
        | .ok m => pure m

/-- One round of the loop of a generated `Unmarshal`. -/
def Schema.step (S : Schema M) (m : M) : Reader M := do
  let preIndex ← get
  let wire ← Reader.varint
  let wireType := wire &&& 7
  if wireType = 4 then
    throw (.other ("proto: " ++ S.name ++ ": wiretype end group for non-group"))
  else if fieldNum wire ≤ 0 then
    throw (.other ("proto: " ++ S.name ++ ": illegal tag " ++ toString (fieldNum wire) ++
      " (wire type " ++ toString wire ++ ")"))
  else
    match S.field (fieldNum wire) with
    | some f => f.read wireType m
    | none => do
        set preIndex
        Reader.skip
        pure m

def Schema.loop (S : Schema M) : (fuel : Nat) → M → Reader M
  | 0, m => do
      let c ← get
      if c.rest.isEmpty then pure m else throw .unexpectedEOF
  | fuel + 1, m => do
      let c ← get
      if c.rest.isEmpty then pure m
      else
        let m ← S.step m
        S.loop fuel m

/-- The generated `Unmarshal` of a message, into `m`. -/
def Schema.unmarshal (S : Schema M) (m : M) (dAtA : List UInt8) : Except WireError M :=
  match (S.loop dAtA.length m).run ⟨0, dAtA⟩ with
  | .ok m _ => .ok m
  | .error e _ => .error e

/-- `bs` takes the message from `m` to `m'`, whatever follows. -/
def Schema.Reads (S : Schema M) (m : M) (bs : List UInt8) (m' : M) : Prop :=
  ∀ i rest fuel, i + (bs ++ rest).length < 2 ^ 63 → (bs ++ rest).length ≤ fuel →
    ∃ fuel', rest.length ≤ fuel' ∧
      (S.loop fuel m).run ⟨i, bs ++ rest⟩ = (S.loop fuel' m').run ⟨i + bs.length, rest⟩

namespace Schema.Reads

variable {S : Schema M} {m m' m'' : M} {bs bs' : List UInt8}

theorem nil (m : M) : S.Reads m [] m := by
  intro i rest fuel _ hfuel
  exact ⟨fuel, hfuel, rfl⟩

theorem append (h : S.Reads m bs m') (h' : S.Reads m' bs' m'') : S.Reads m (bs ++ bs') m'' := by
  intro i rest fuel hi hfuel
  rw [List.append_assoc] at hi hfuel ⊢
  obtain ⟨fuel₁, hfuel₁, heq₁⟩ := h i (bs' ++ rest) fuel hi hfuel
  rw [List.length_append] at hi
  obtain ⟨fuel₂, hfuel₂, heq₂⟩ := h' (i + bs.length) rest fuel₁ (by omega) hfuel₁
  refine ⟨fuel₂, hfuel₂, ?_⟩
  rw [heq₁, heq₂, List.length_append, Nat.add_assoc]

/-- No message is longer than an `int` can say. -/
theorem of_length_lt (h : bs.length < 2 ^ 63 → S.Reads m bs m') : S.Reads m bs m' := by
  intro i rest fuel hi hfuel
  refine h ?_ i rest fuel hi hfuel
  rw [List.length_append] at hi
  omega

/-- One round of the loop. -/
theorem of_step (h : Reader.Takes (S.step m) bs m') (hne : bs ≠ []) : S.Reads m bs m' := by
  intro i rest fuel hi hfuel
  have hpos : 0 < bs.length := List.length_pos_iff.mpr hne
  rw [List.length_append] at hfuel
  obtain ⟨fuel, rfl⟩ : ∃ k, fuel = k + 1 := ⟨fuel - 1, by omega⟩
  refine ⟨fuel, by omega, ?_⟩
  have hempty : (bs ++ rest).isEmpty = false := by simp [hne]
  have hrun := (h i rest hi).run_bind (f := S.loop fuel)
  rw [← hrun]
  show (if (bs ++ rest).isEmpty then (pure m : Reader M)
    else do let m ← S.step m; S.loop fuel m).run _ = _
  rw [hempty]
  rfl

/-- **What is read is what `Unmarshal` returns.** -/
theorem unmarshal_eq (h : S.Reads m bs m') (hlen : bs.length < 2 ^ 63) :
    S.unmarshal m bs = .ok m' := by
  obtain ⟨fuel, _, heq⟩ := h 0 [] bs.length (by simpa using hlen) (by simp)
  rw [List.append_nil] at heq
  rw [Schema.unmarshal, heq]
  cases fuel <;> rfl

end Schema.Reads

/-! ## The fields of a schema -/

/-- The tag of a field. -/
def tag (num wireType : Nat) : UInt64 := UInt64.ofNat (num * 8 + wireType)

theorem toNat_tag {num wireType : Nat} (hnum : num < 2 ^ 31) (hwire : wireType < 8) :
    (tag num wireType).toNat = num * 8 + wireType := by
  rw [tag, UInt64.toNat_ofNat', Nat.mod_eq_of_lt (by omega)]

theorem tag_and_seven {num wireType : Nat} (hwire : wireType < 8) :
    tag num wireType &&& 7 = UInt64.ofNat wireType := by
  apply UInt64.toNat_inj.mp
  have hmod : (tag num wireType).toNat &&& 7 = (tag num wireType).toNat % 8 :=
    Nat.and_two_pow_sub_one_eq_mod _ 3
  rw [UInt64.toNat_and, UInt64.toNat_ofNat']
  refine hmod.trans ?_
  rw [tag, UInt64.toNat_ofNat']
  omega

theorem fieldNum_eq {wire : UInt64} (h : wire.toNat / 8 < 2 ^ 31) :
    fieldNum wire = (wire.toNat / 8 : Nat) := by
  have hshift : (wire >>> 3).toNat = wire.toNat / 8 := by
    rw [UInt64.toNat_shiftRight]
    exact Nat.shiftRight_eq_div_pow wire.toNat 3
  calc fieldNum wire = ((wire.toNat / 8 : Nat) : Int).bmod (2 ^ 32) :=
        congrArg (fun n : Nat => (n : Int).bmod (2 ^ 32)) hshift
    _ = (wire.toNat / 8 : Nat) := Int.bmod_eq_of_le (by omega) (by omega)

theorem fieldNum_tag {num wireType : Nat} (hnum : num < 2 ^ 31) (hwire : wireType < 8) :
    fieldNum (tag num wireType) = (num : Int) := by
  have hdiv : (tag num wireType).toNat / 8 = num := by
    rw [toNat_tag hnum hwire]
    omega
  rw [fieldNum_eq (by rw [hdiv]; exact hnum), hdiv]

/-- A field that holds a varint. -/
def varintField (num : Nat) (v : UInt64) : List UInt8 := varint (tag num 0) ++ varint v

/-- A field that holds bytes. -/
def bytesField (num : Nat) (bs : List UInt8) : List UInt8 :=
  varint (tag num 2) ++ (varint (UInt64.ofNat bs.length) ++ bs)

theorem varintLoop_ne_nil (k n : Nat) : varintLoop k n ≠ [] := by
  cases k with
  | zero => simp [varintLoop]
  | succ k =>
      rw [varintLoop]
      split <;> simp

variable {S : Schema M} {m m' : M} {num wireType : Nat} {f : Field M}

/-- The round of a field that the schema has. -/
theorem Schema.takes_step {bs : List UInt8} (hpos : 0 < num) (hnum : num < 2 ^ 31)
    (hwire : wireType < 8) (hgroup : wireType ≠ 4)
    (hf : S.field num = some f)
    (h : Reader.Takes (f.read (UInt64.ofNat wireType) m) bs m') :
    Reader.Takes (S.step m) (varint (tag num wireType) ++ bs) m' := by
  intro i rest hi
  refine returns_bind.mpr ⟨_, _, returns_get.mpr ⟨rfl, rfl⟩, ?_⟩
  refine ((Reader.takes_varint (tag num wireType)).bind ?_) i rest hi
  have hne : ¬ UInt64.ofNat wireType = 4 := by
    intro heq
    have := congrArg UInt64.toNat heq
    rw [UInt64.toNat_ofNat', Nat.mod_eq_of_lt (by omega)] at this
    exact hgroup this
  simp only [tag_and_seven hwire, fieldNum_tag hnum hwire, if_neg hne,
    if_neg (show ¬ (num : Int) ≤ 0 by omega), hf]
  exact h

theorem Schema.Reads.of_field {bs : List UInt8} (hpos : 0 < num) (hnum : num < 2 ^ 31)
    (hwire : wireType < 8) (hgroup : wireType ≠ 4)
    (hf : S.field num = some f)
    (h : Reader.Takes (f.read (UInt64.ofNat wireType) m) bs m') :
    S.Reads m (varint (tag num wireType) ++ bs) m' := by
  refine .of_step (S.takes_step hpos hnum hwire hgroup hf h) ?_
  simp [varint, varintLoop_ne_nil]

/-- A varint field is given to its setter. -/
theorem Schema.Reads.varintField {n : Int} {name : String} {put : UInt64 → M → M}
    (num : Nat) (v : UInt64) (hnum : 0 < num ∧ num < 2 ^ 31)
    (hf : S.field num = some ⟨n, name, .varint put⟩) :
    S.Reads m (varintField num v) (put v m) := by
  refine .of_field hnum.1 hnum.2 (by decide) (by decide) hf ?_
  have h : Reader.Takes (Reader.varint >>= fun v => pure (put v m)) (varint v ++ []) (put v m) :=
    (Reader.takes_varint v).bind (.pure _)
  rw [List.append_nil] at h
  exact h

/-- A field of bytes is given to its setter. -/
theorem Schema.Reads.bytesField {n : Int} {name : String}
    {put : List UInt8 → M → Except WireError M} {bs : List UInt8} (num : Nat)
    (hnum : 0 < num ∧ num < 2 ^ 31) (hf : S.field num = some ⟨n, name, .bytes put⟩)
    (h : put bs m = .ok m') : S.Reads m (bytesField num bs) m' := by
  refine .of_field hnum.1 hnum.2 (by decide) (by decide) hf ?_
  let set (bs : List UInt8) : Reader M :=
    match put bs m with
    | .error e => throw e
    | .ok m => pure m
  have hset : Reader.Takes (set bs) [] m' := by
    simp only [set, h]
    exact .pure m'
  have hall : Reader.Takes (Reader.bytes >>= set) _ m' := (Reader.takes_bytes bs).bind hset
  rw [List.append_nil] at hall
  exact hall

/-- A varint field that is left out when it is zero. -/
def optVarintField (num : Nat) (v : UInt64) : List UInt8 :=
  if v ≠ 0 then varintField num v else []

/-- A field of bytes that is left out when it is empty. -/
def optBytesField (num : Nat) (bs : List UInt8) : List UInt8 :=
  if 0 < bs.length then bytesField num bs else []

theorem Schema.Reads.optVarintField {n : Int} {name : String} {put : UInt64 → M → M}
    (num : Nat) (v : UInt64) (hnum : 0 < num ∧ num < 2 ^ 31)
    (hf : S.field num = some ⟨n, name, .varint put⟩) (hzero : put 0 m = m) (h : put v m = m') :
    S.Reads m (optVarintField num v) m' := by
  subst h
  by_cases hv : v = 0
  · subst hv
    rw [hzero]
    exact .nil m
  · rw [Proto.optVarintField, if_pos hv]
    exact .varintField num v hnum hf

theorem Schema.Reads.parsedField {α : Type} {n : Int} {name : String}
    {parse : List UInt8 → Except WireError α} {put : α → M → M} {bs : List UInt8} {a : α}
    (num : Nat) (hnum : 0 < num ∧ num < 2 ^ 31)
    (hf : S.field num = some ⟨n, name, .parsed parse put⟩) (hparse : parse bs = .ok a)
    (h : put a m = m') : S.Reads m (Proto.bytesField num bs) m' := by
  refine .bytesField num hnum hf ?_
  rw [hparse, ← h]
  rfl

/-- A message inside a message. -/
theorem Schema.Reads.messageField {N : Type} {T : Schema N} {z a : N} {n : Int} {name : String}
    {parse : List UInt8 → Except WireError N} {put : N → M → M} {bs : List UInt8} (num : Nat)
    (hnum : 0 < num ∧ num < 2 ^ 31) (hf : S.field num = some ⟨n, name, .parsed parse put⟩)
    (hparse : ∀ bs, parse bs = T.unmarshal z bs) (hreads : T.Reads z bs a) (h : put a m = m') :
    S.Reads m (Proto.bytesField num bs) m' := by
  refine .of_length_lt fun hlen => .parsedField num hnum hf ?_ h
  simp only [Proto.bytesField, List.length_append] at hlen
  rw [hparse]
  exact hreads.unmarshal_eq (by omega)

theorem Schema.Reads.optBytesField_of {n : Int} {name : String} {put : List UInt8 → M → M}
    (num : Nat) {bs : List UInt8} (hnum : 0 < num ∧ num < 2 ^ 31)
    (hf : S.field num = some ⟨n, name, .plain put⟩) (hempty : bs = [] → m = m')
    (h : bs ≠ [] → put bs m = m') : S.Reads m (optBytesField num bs) m' := by
  by_cases hbs : bs = []
  · obtain rfl := hempty hbs
    rw [hbs]
    exact .nil m
  · rw [Proto.optBytesField, if_pos (List.length_pos_iff.mpr hbs)]
    exact .parsedField num hnum hf rfl (h hbs)

theorem Schema.Reads.optBytesField {n : Int} {name : String} {put : List UInt8 → M → M}
    (num : Nat) (bs : List UInt8) (hnum : 0 < num ∧ num < 2 ^ 31)
    (hf : S.field num = some ⟨n, name, .plain put⟩) (hempty : put [] m = m) (h : put bs m = m') :
    S.Reads m (optBytesField num bs) m' := by
  refine .optBytesField_of num hnum hf (fun hbs => ?_) fun _ => h
  rw [← h, hbs, hempty]

/-- A repeated field: every element `x` adds `val x`. -/
theorem Schema.Reads.repeated_map {α β : Type} {g : α → List UInt8} (val : α → β)
    (get : M → List β) (set : List β → M → M) (hget : ∀ ys m, get (set ys m) = ys)
    (hset : ∀ xs ys m, set ys (set xs m) = set ys m) {xs : List α}
    (h : ∀ x ∈ xs, ∀ m, S.Reads m (g x) (set (get m ++ [val x]) m)) (hne : xs ≠ []) :
    S.Reads m (xs.flatMap g) (set (get m ++ xs.map val) m) := by
  induction xs generalizing m with
  | nil => exact absurd rfl hne
  | cons x xs ih =>
      obtain ⟨hx, hxs⟩ := List.forall_mem_cons.mp h
      by_cases hnil : xs = []
      · subst hnil
        rw [List.flatMap_singleton]
        exact hx m
      · have hrest := (hx m).append (ih hxs hnil)
        rw [hget, hset, List.append_assoc] at hrest
        exact hrest

theorem Schema.Reads.repeated {α : Type} {g : α → List UInt8} (get : M → List α)
    (set : List α → M → M) (hget : ∀ xs m, get (set xs m) = xs)
    (hset : ∀ xs ys m, set ys (set xs m) = set ys m) {xs : List α}
    (h : ∀ x ∈ xs, ∀ m, S.Reads m (g x) (set (get m ++ [x]) m)) (hne : xs ≠ []) :
    S.Reads m (xs.flatMap g) (set (get m ++ xs) m) := by
  have hid := Schema.Reads.repeated_map (m := m) id get set hget hset h hne
  rwa [List.map_id] at hid

end Schema

/-! ## Fields of other schemas -/

mutual

/-- The value of a field on the wire. -/
inductive Value
  | varint (v : UInt64)
  | fixed64 (bs : Fin 8 → UInt8)
  | bytes (bs : List UInt8)
  | group (fields : Fields)
  | fixed32 (bs : Fin 4 → UInt8)

inductive Fields
  | nil
  | cons (num : Nat) (value : Value) (rest : Fields)

end

def Value.wireType : Value → Nat
  | .varint _ => 0
  | .fixed64 _ => 1
  | .bytes _ => 2
  | .group _ => 3
  | .fixed32 _ => 5

theorem Value.wireType_lt (v : Value) : v.wireType < 8 := by
  cases v <;> simp [Value.wireType]

mutual

/-- What stands behind the tag of a field. A group ends with a tag of its own. -/
def Value.encode (num : Nat) : Value → List UInt8
  | .varint v => Proto.varint v
  | .fixed64 bs => List.ofFn bs
  | .bytes bs => Proto.varint (UInt64.ofNat bs.length) ++ bs
  | .group fields => fields.encode ++ Proto.varint (tag num 4)
  | .fixed32 bs => List.ofFn bs

def Fields.encode : Fields → List UInt8
  | .nil => []
  | .cons num value rest => Proto.varint (tag num value.wireType) ++ value.encode num ++ rest.encode

end

namespace Reader

theorem takes_skipRound {num wireType depth depth' : Nat} {bs : List UInt8} (hwire : wireType < 8)
    (h : Takes (skipValue depth (UInt64.ofNat wireType)) bs depth') :
    Takes (skipRound depth) (Proto.varint (tag num wireType) ++ bs) depth' := by
  refine (takes_varint _).bind ?_
  rw [tag_and_seven hwire]
  exact h

theorem takes_openGroup (num depth : Nat) :
    Takes (skipRound depth) (Proto.varint (tag num 3)) (depth + 1) := by
  have h : Takes (skipRound depth) (Proto.varint (tag num 3) ++ []) (depth + 1) :=
    takes_skipRound (by decide) (.pure (depth + 1))
  rwa [List.append_nil] at h

theorem takes_closeGroup (num depth : Nat) :
    Takes (skipRound (depth + 1)) (Proto.varint (tag num 4)) depth := by
  have h : Takes (skipRound (depth + 1)) (Proto.varint (tag num 4) ++ []) depth :=
    takes_skipRound (by decide) (.pure depth)
  rwa [List.append_nil] at h

/-- A value that is not a group leaves the depth as it is. -/
theorem takes_skipValue (num depth : Nat) {v : Value} (hv : ∀ fields, v ≠ .group fields) :
    Takes (skipValue depth (UInt64.ofNat v.wireType)) (v.encode num) depth := by
  have hjump : ∀ (n : Nat) (bs : List UInt8), bs.length = n →
      Takes (do jump n; pure depth) bs depth := by
    intro n bs hn
    have h := (takes_jump hn).bind (f := fun _ => pure depth) (.pure depth)
    rwa [List.append_nil] at h
  cases v with
  | varint v =>
      have h := (takes_varint v).bind (f := fun _ => pure depth) (.pure depth)
      rwa [List.append_nil] at h
  | fixed64 bs => exact hjump 8 _ List.length_ofFn
  | bytes bs =>
      refine .of_length_lt fun hlen => (takes_varint _).bind ?_
      rw [Value.encode, List.length_append] at hlen
      have hbs : (UInt64.ofNat bs.length).toNat = bs.length := by
        rw [UInt64.toNat_ofNat', Nat.mod_eq_of_lt (by omega)]
      rw [if_neg (by omega), hbs]
      exact hjump _ _ rfl
  | group fields => exact absurd rfl (hv fields)
  | fixed32 bs => exact hjump 4 _ List.length_ofFn

theorem varint_append_ne_nil (v : UInt64) (bs : List UInt8) : Proto.varint v ++ bs ≠ [] := by
  simp [Proto.varint, varintLoop_ne_nil]

theorem takes_skipRound_value (num depth : Nat) {v : Value} (hv : ∀ fields, v ≠ .group fields) :
    Takes (skipRound depth) (Proto.varint (tag num v.wireType) ++ v.encode num) depth :=
  takes_skipRound v.wireType_lt (takes_skipValue num depth hv)

mutual

/-- Inside a group, a field is skipped and the group goes on. -/
theorem Skipped.field {depth : Nat} {bs : List UInt8} (num : Nat) (v : Value)
    (h : Skipped (depth + 1) bs) :
    Skipped (depth + 1) (Proto.varint (tag num v.wireType) ++ v.encode num ++ bs) := by
  have plain : (∀ fields, v ≠ .group fields) →
      Skipped (depth + 1) (Proto.varint (tag num v.wireType) ++ v.encode num ++ bs) := fun hv =>
    .of_more (takes_skipRound_value num _ hv) (varint_append_ne_nil _ _) (Nat.succ_ne_zero _) h
  match v with
  | .group fields =>
      rw [Value.encode, ← List.append_assoc, List.append_assoc, List.append_assoc]
      refine .of_more (takes_openGroup num _) (varintLoop_ne_nil _ _) (Nat.succ_ne_zero _) ?_
      refine Skipped.fields fields ?_
      exact .of_more (takes_closeGroup num _) (varintLoop_ne_nil _ _) (Nat.succ_ne_zero _) h
  | .varint _ | .fixed64 _ | .bytes _ | .fixed32 _ => exact plain (by simp)

theorem Skipped.fields {depth : Nat} {bs : List UInt8} (fields : Fields)
    (h : Skipped (depth + 1) bs) : Skipped (depth + 1) (fields.encode ++ bs) :=
  match fields with
  | .nil => h
  | .cons num value rest => by
      rw [Fields.encode, List.append_assoc]
      exact Skipped.field num value (Skipped.fields rest h)

end

/-- **A field of any kind is skipped whole**, groups in groups included. -/
theorem skipped_value (num : Nat) (v : Value) :
    Skipped 0 (Proto.varint (tag num v.wireType) ++ v.encode num) := by
  have plain : (∀ fields, v ≠ .group fields) →
      Skipped 0 (Proto.varint (tag num v.wireType) ++ v.encode num) := fun hv =>
    .of_last (takes_skipRound_value num 0 hv) (varint_append_ne_nil _ _)
  match v with
  | .group fields =>
      refine .of_more (takes_openGroup num _) (varintLoop_ne_nil _ _) (Nat.succ_ne_zero _) ?_
      refine Skipped.fields fields ?_
      exact .of_last (takes_closeGroup num _) (varintLoop_ne_nil _ _)
  | .varint _ | .fixed64 _ | .bytes _ | .fixed32 _ => exact plain (by simp)

end Reader

/-- The numbers of the fields, those inside groups left out. -/
def Fields.nums : Fields → List Nat
  | .nil => []
  | .cons num _ rest => num :: rest.nums

section Unknown

variable {M : Type} {S : Schema M}

/-- The numbers are field numbers, and the schema has none of them. -/
def Schema.Unknown (S : Schema M) (fields : Fields) : Prop :=
  ∀ num ∈ fields.nums, 0 < num ∧ num < 2 ^ 31 ∧ S.field num = none

instance (S : Schema M) (fields : Fields) : Decidable (S.Unknown fields) :=
  inferInstanceAs (Decidable (∀ num ∈ fields.nums, 0 < num ∧ num < 2 ^ 31 ∧ S.field num = none))

/-- The round of a field that the schema does not have. -/
theorem Schema.takes_step_unknown {num : Nat} (v : Value) (m : M) (hpos : 0 < num)
    (hnum : num < 2 ^ 31) (hf : S.field num = none) :
    Reader.Takes (S.step m) (varint (tag num v.wireType) ++ v.encode num) m := by
  intro i rest hi
  refine returns_bind.mpr ⟨_, _, returns_get.mpr ⟨rfl, rfl⟩, ?_⟩
  have hskip := (Reader.skipped_value num v).takes_skip i rest hi
  rw [List.append_assoc] at hi hskip ⊢
  refine returns_bind.mpr ⟨_, _, Reader.takes_varint _ i _ hi, ?_⟩
  have hne : ¬ UInt64.ofNat v.wireType = 4 := by cases v <;> simp [Value.wireType]
  simp only [tag_and_seven v.wireType_lt, fieldNum_tag hnum v.wireType_lt, if_neg hne,
    if_neg (show ¬ (num : Int) ≤ 0 by omega), hf]
  refine returns_bind.mpr ⟨(), _, returns_set.mpr rfl, ?_⟩
  exact returns_bind.mpr ⟨(), _, hskip, returns_pure.mpr ⟨rfl, rfl⟩⟩

/-- Fields that the schema does not have are read without effect. -/
theorem Schema.Reads.unknown {fields : Fields} (m : M) (h : S.Unknown fields) :
    S.Reads m fields.encode m := by
  match fields with
  | .nil => exact .nil m
  | .cons num value rest =>
      obtain ⟨⟨hpos, hnum, hf⟩, hrest⟩ := List.forall_mem_cons.mp h
      exact .append (.of_step (S.takes_step_unknown value m hpos hnum hf)
        (Reader.varint_append_ne_nil _ _)) (.unknown m hrest)

end Unknown

/-! ## What is accepted -/

section Accepted

variable {M : Type} {S : Schema M} {m m' m'' : M}

theorem Field.local_read (f : Field M) (wireType : UInt64) (m : M) :
    Reader.Local (f.read wireType m) := by
  unfold Field.read
  split
  · split
    · exact .throw _
    · exact Reader.local_varint.bind fun _ => .pure _
  · split
    · exact .throw _
    · refine Reader.local_bytes.bind fun bs => ?_
      split
      · exact .throw _
      · exact .pure _

/-- The bytes of a round are a round in front of any other bytes. -/
theorem Schema.returns_step {c c' : Cursor} (h : Returns (S.step m) c m' c') :
    ∃ bs, bs ≠ [] ∧ c.rest = bs ++ c'.rest ∧ c'.iNdEx = c.iNdEx + bs.length ∧
      Reader.Takes (S.step m) bs m' := by
  obtain ⟨_, _, hget, h₁⟩ := returns_bind.mp h
  obtain ⟨rfl, rfl⟩ := returns_get.mp hget
  obtain ⟨wire, c₁, hwire, h₂⟩ := returns_bind.mp h₁
  obtain ⟨bs, hne, hrest, hindex, hread⟩ := Reader.returns_varint hwire
  dsimp only at h₂
  split at h₂
  · exact absurd h₂ returns_throw
  next hgroup =>
    split at h₂
    · exact absurd h₂ returns_throw
    next hnum =>
      cases hf : S.field (fieldNum wire) with
      | some f =>
          rw [hf] at h₂
          obtain ⟨bs', hrest', hindex', htakes⟩ := f.local_read _ m c₁ m' c' h₂
          refine ⟨bs ++ bs', by simp [hne], ?_, ?_, ?_⟩
          · rw [hrest, hrest', List.append_assoc]
          · rw [hindex', hindex, List.length_append, Nat.add_assoc]
          · intro i rest hi
            refine returns_bind.mpr ⟨_, _, returns_get.mpr ⟨rfl, rfl⟩, ?_⟩
            refine ((Reader.takes_varint_of hread).bind ?_) i rest hi
            simp only [if_neg hgroup, if_neg hnum, hf]
            exact htakes
      | none =>
          rw [hf] at h₂
          obtain ⟨_, c₂, hset, h₃⟩ := returns_bind.mp h₂
          obtain rfl : c = c₂ := returns_set.mp hset
          obtain ⟨_, c₃, hskip, h₄⟩ := returns_bind.mp h₃
          obtain ⟨rfl, rfl⟩ := returns_pure.mp h₄
          obtain ⟨bs', ⟨wire', bs₁, bs₂, hne₁, rfl, hread₁⟩, hrest', hindex', htakes⟩ :=
            Reader.returns_skip hskip
          refine ⟨bs₁ ++ bs₂, by simp [hne₁], hrest', hindex', ?_⟩
          -- the tag that was read is the tag that is skipped
          obtain rfl : wire = wire' := by
            have h₅ := hread c₁.rest
            rw [← hrest, hrest', List.append_assoc, hread₁] at h₅
            exact ((Prod.mk.inj (Except.ok.inj h₅)).1).symm
          intro i rest hi
          refine returns_bind.mpr ⟨_, _, returns_get.mpr ⟨rfl, rfl⟩, ?_⟩
          have hskip' := htakes i rest hi
          rw [List.append_assoc] at hi hskip' ⊢
          refine returns_bind.mpr ⟨_, _, Reader.takes_varint_of hread₁ i _ hi, ?_⟩
          simp only [if_neg hgroup, if_neg hnum, hf]
          refine returns_bind.mpr ⟨(), _, returns_set.mpr rfl, ?_⟩
          exact returns_bind.mpr ⟨(), _, hskip', returns_pure.mpr ⟨rfl, rfl⟩⟩

theorem Schema.reads_of_loop {fuel : Nat} {c c' : Cursor} (h : Returns (S.loop fuel m) c m' c') :
    S.Reads m c.rest m' := by
  induction fuel generalizing m c with
  | zero =>
      obtain ⟨_, _, hget, h₁⟩ := returns_bind.mp h
      obtain ⟨rfl, rfl⟩ := returns_get.mp hget
      split at h₁
      next hempty =>
        obtain ⟨rfl, rfl⟩ := returns_pure.mp h₁
        rw [List.isEmpty_iff.mp hempty]
        exact .nil _
      · exact absurd h₁ returns_throw
  | succ fuel ih =>
      obtain ⟨_, _, hget, h₁⟩ := returns_bind.mp h
      obtain ⟨rfl, rfl⟩ := returns_get.mp hget
      split at h₁
      next hempty =>
        obtain ⟨rfl, rfl⟩ := returns_pure.mp h₁
        rw [List.isEmpty_iff.mp hempty]
        exact .nil _
      · obtain ⟨m₁, c₁, hstep, hloop⟩ := returns_bind.mp h₁
        obtain ⟨bs, hne, hrest, _, htakes⟩ := S.returns_step hstep
        rw [hrest]
        exact (Reads.of_step htakes hne).append (ih hloop)

/-- What `Unmarshal` accepts is read, whatever stands behind it. -/
theorem Schema.reads_of_unmarshal {bs : List UInt8} (h : S.unmarshal m bs = .ok m') :
    S.Reads m bs m' := by
  unfold Schema.unmarshal at h
  split at h
  next hrun =>
    cases h
    exact S.reads_of_loop (returns_iff.mpr hrun)
  · cases h

/-- **One message after the other**: behind bytes that have been accepted, `Unmarshal` goes on
from the message they stand for. -/
theorem Schema.unmarshal_append {bs bs' : List UInt8} (h : S.unmarshal m bs = .ok m')
    (hlen : (bs ++ bs').length < 2 ^ 63) :
    S.unmarshal m (bs ++ bs') = .ok m'' ↔ S.unmarshal m' bs' = .ok m'' := by
  have hreads := S.reads_of_unmarshal h
  constructor
  · intro hall
    obtain ⟨fuel, _, heq⟩ := hreads 0 bs' _ (by rwa [Nat.zero_add]) le_rfl
    unfold Schema.unmarshal at hall
    rw [heq] at hall
    split at hall
    next hrun =>
      cases hall
      rw [List.length_append] at hlen
      exact (S.reads_of_loop (returns_iff.mpr hrun)).unmarshal_eq (lt_of_le_of_lt (by simp) hlen)
    · cases hall
  · intro hrest
    exact (hreads.append (S.reads_of_unmarshal hrest)).unmarshal_eq hlen

/-- What every setter keeps holds of every message that is accepted. -/
def Setter.Keeps (P : M → Prop) : Setter M → Prop
  | .varint put => ∀ v m, P m → P (put v m)
  | .bytes put => ∀ bs m m', P m → put bs m = .ok m' → P m'

variable {P : M → Prop}

theorem Field.read_keeps {f : Field M} (hf : f.setter.Keeps P) {wireType : UInt64} {c c' : Cursor}
    (h : Returns (f.read wireType m) c m' c') (hm : P m) : P m' := by
  unfold Field.read at h
  split at h
  next put hput =>
    rw [hput] at hf
    split at h
    · exact absurd h returns_throw
    · obtain ⟨v, _, _, hpure⟩ := returns_bind.mp h
      obtain ⟨rfl, -⟩ := returns_pure.mp hpure
      exact hf v m hm
  next put hput =>
    rw [hput] at hf
    split at h
    · exact absurd h returns_throw
    · obtain ⟨bs, _, _, hset⟩ := returns_bind.mp h
      split at hset
      · exact absurd hset returns_throw
      next hok =>
        obtain ⟨rfl, -⟩ := returns_pure.mp hset
        exact hf bs m _ hm hok

theorem Schema.step_keeps (hS : ∀ f ∈ S.fields, f.setter.Keeps P) {c c' : Cursor}
    (h : Returns (S.step m) c m' c') (hm : P m) : P m' := by
  obtain ⟨_, _, hget, h₁⟩ := returns_bind.mp h
  obtain ⟨wire, _, _, h₂⟩ := returns_bind.mp h₁
  dsimp only at h₂
  split at h₂
  · exact absurd h₂ returns_throw
  split at h₂
  · exact absurd h₂ returns_throw
  split at h₂
  next f hf => exact Field.read_keeps (hS f (List.mem_of_find?_eq_some hf)) h₂ hm
  · obtain ⟨_, _, _, h₃⟩ := returns_bind.mp h₂
    obtain ⟨_, _, _, h₄⟩ := returns_bind.mp h₃
    obtain ⟨rfl, -⟩ := returns_pure.mp h₄
    exact hm

theorem Schema.loop_keeps (hS : ∀ f ∈ S.fields, f.setter.Keeps P) {fuel : Nat} {c c' : Cursor}
    (h : Returns (S.loop fuel m) c m' c') (hm : P m) : P m' := by
  induction fuel generalizing m c with
  | zero =>
      obtain ⟨_, _, _, h₁⟩ := returns_bind.mp h
      split at h₁
      · obtain ⟨rfl, -⟩ := returns_pure.mp h₁
        exact hm
      · exact absurd h₁ returns_throw
  | succ fuel ih =>
      obtain ⟨_, _, _, h₁⟩ := returns_bind.mp h
      split at h₁
      · obtain ⟨rfl, -⟩ := returns_pure.mp h₁
        exact hm
      · obtain ⟨m₁, c₁, hstep, hloop⟩ := returns_bind.mp h₁
        exact ih hloop (S.step_keeps hS hstep hm)

theorem Schema.unmarshal_keeps (hS : ∀ f ∈ S.fields, f.setter.Keeps P) {bs : List UInt8}
    (h : S.unmarshal m bs = .ok m') (hm : P m) : P m' := by
  unfold Schema.unmarshal at h
  split at h
  next hrun =>
    cases h
    exact S.loop_keeps hS (returns_iff.mpr hrun) hm
  · cases h

end Accepted

end Story.Proto
