/-
# Story.Server.QueryMap -- query parameters as a nested map

The API server decodes the parameters of a request, such as `pagination.limit=5`, in two
steps. `buildMap` makes a nested map of them, one level for each dot in a key, and a decoder of
the library turns that map into the structure the handler asks for.

A call of `buildMap` ranges over all parameters and looks at those whose key starts with the
prefix it is given. For the first key that goes on behind a further dot it calls itself with a
longer prefix, but with the same parameters. So nothing gets smaller from call to call, and a
key with empty segments, as in `.a`, is found again by the call it has led to. The recursion
takes fuel here; running out of it is not an outcome of the code, and is told apart.

Strings are lists of bytes, as Go compares them.
-/
import Mathlib.Data.List.Perm.Basic
import Mathlib.Data.List.Nodup
import Mathlib.Logic.Function.Basic
import Story.Errors
import Story.Eth
import Story.Collections.Segments

namespace Story.Server

open Story.Errors Story.Eth Story.Collections.Segments

/-! ## Strings -/

/-- The byte `'.'`. -/
def dot : UInt8 := 46

/-- The string `"[]"`. -/
def brackets : Bytes := [91, 93]

/-- `strings.Join(elems, ".")`. -/
def join (elems : List Bytes) : Bytes := [dot].intercalate elems

/-- `strings.TrimPrefix`. -/
def trimPrefix (s start : Bytes) : Bytes := if start <+: s then s.drop start.length else s

/-- `strings.TrimSuffix(s, "[]")`. -/
def trimSuffix (s : Bytes) : Bytes :=
  if brackets <:+ s then s.take (s.length - brackets.length) else s

/-- `strings.IndexByte(s, '.')`, or nothing when it is -1. -/
def indexByte (s : Bytes) : Option Nat := s.idxOf? dot

/-! ## The nested map -/

/-- A `url.Values`: a map from keys to the values given for them. -/
structure Values where
  entries : List (Bytes × List Bytes)
  nodup : (entries.map Prod.fst).Nodup

/-- The orders in which the calls of `buildMap` range over the map. Go does not say what they
are, and they may differ from call to call; a call is known by its prefix. -/
structure Order (query : Values) where
  entries : List Bytes → List (Bytes × List Bytes)
  perm : ∀ pre, (entries pre).Perm query.entries

/-- What a `map[string]any` holds here: the values of a parameter, or a further map. -/
inductive GoAny
  | strings (vs : List Bytes)
  | map (entries : Bytes → Option GoAny)

/-- `map[string]any`. -/
abbrev GoMap := Bytes → Option GoAny

/-- `fullPrefix`: the prefix with its dot, unless it is empty. -/
def fullPrefix (pre : List Bytes) : Bytes :=
  if 0 < (join pre).length then join pre ++ [dot] else join pre

/-- The key without the prefix and without `[]`, for a key that the call looks at. -/
def relativeKey (fullPrefix k : Bytes) : Option Bytes :=
  if fullPrefix = [] ∨ trimPrefix k fullPrefix ≠ k then some (trimSuffix (trimPrefix k fullPrefix))
  else none

/-- What a call makes of a key. -/
inductive Place
  | outside
  | leaf (rk : Bytes)
  | below (rk : Bytes)
  deriving DecidableEq

def place (fullPrefix k : Bytes) : Place :=
  match relativeKey fullPrefix k with
  | none => .outside
  | some rk =>
      match indexByte rk with
      | some prefixIndex => .below (rk.take prefixIndex)
      | none => .leaf rk

/-- The variables of the loop. -/
structure Loop where
  ret : GoMap
  prefixMapped : Bytes → Bool

def Loop.empty : Loop := ⟨fun _ => none, fun _ => false⟩

/-- One round of the loop; `nested` is the call with the longer prefix. -/
def visit (nested : Bytes → Option GoMap) (fullPrefix : Bytes) (st : Loop)
    (kv : Bytes × List Bytes) : Option Loop :=
  match place fullPrefix kv.1 with
  | .outside => some st
  | .leaf rk => some { st with ret := Function.update st.ret rk (some (.strings kv.2)) }
  | .below rk =>
      if st.prefixMapped rk then some st
      else
        (nested rk).map fun m =>
          { ret := Function.update st.ret rk (some (.map m))
            prefixMapped := Function.update st.prefixMapped rk true }

def buildMap {query : Values} (order : Order query) : (fuel : Nat) → (pre : List Bytes) →
    Option GoMap
  | 0, _ => none
  | fuel + 1, pre =>
      ((order.entries pre).foldlM
        (visit (fun rk => buildMap order fuel (pre ++ [rk])) (fullPrefix pre)) Loop.empty).map
          Loop.ret

/-- The decoder of the library, set up for the value that is asked for. -/
structure Decoder (α : Type) where
  newDecoder : Except SdkError Unit
  decode : GoMap → Except SdkError α

def queryMapToVal {α : Type} {query : Values} (D : Decoder α) (order : Order query) (fuel : Nat) :
    Option (Except SdkError α) :=
  match D.newDecoder with
  | .error err => some (.error err)
  | .ok () => (buildMap order fuel []).map D.decode

/-! ## The loop -/

section Loop

variable {nested nested' : Bytes → Option GoMap} {full : Bytes} {st st' : Loop}
  {kv : Bytes × List Bytes} {seen kvs : List (Bytes × List Bytes)}

/-- The loop finishes when the calls it may make do. -/
theorem exists_foldlM_visit
    (h : ∀ kv ∈ kvs, ∀ rk, place full kv.1 = .below rk → ∃ m, nested rk = some m) (st : Loop) :
    ∃ st', kvs.foldlM (visit nested full) st = some st' := by
  induction kvs generalizing st with
  | nil => exact ⟨st, rfl⟩
  | cons kv kvs ih =>
      have hrest := ih fun kv' hmem => h kv' (List.mem_cons_of_mem _ hmem)
      have hone : ∃ st₁, visit nested full st kv = some st₁ := by
        unfold visit
        split
        next => exact ⟨_, rfl⟩
        next => exact ⟨_, rfl⟩
        next rk hplace =>
          obtain ⟨m, hm⟩ := h kv List.mem_cons_self rk hplace
          split
          · exact ⟨_, rfl⟩
          · exact ⟨_, by rw [hm]; rfl⟩
      obtain ⟨st₁, hst₁⟩ := hone
      obtain ⟨st', hst'⟩ := hrest st₁
      exact ⟨st', by rw [List.foldlM_cons, hst₁]; exact hst'⟩

/-- More fuel for the calls changes nothing. -/
theorem visit_mono (hnested : ∀ rk m, nested rk = some m → nested' rk = some m)
    (h : visit nested full st kv = some st') : visit nested' full st kv = some st' := by
  unfold visit at h ⊢
  split at h
  next hplace => exact h
  next rk hplace => exact h
  next rk hplace =>
    split at h
    next hmapped => rw [if_pos hmapped, h]
    next hmapped =>
      obtain ⟨m, hm, rfl⟩ := Option.map_eq_some_iff.mp h
      rw [if_neg hmapped, hnested rk m hm, Option.map_some]

theorem foldlM_visit_mono (hnested : ∀ rk m, nested rk = some m → nested' rk = some m)
    (h : kvs.foldlM (visit nested full) st = some st') :
    kvs.foldlM (visit nested' full) st = some st' := by
  induction kvs generalizing st with
  | nil => exact h
  | cons kv kvs ih =>
      obtain ⟨st₁, hone, hrest⟩ := Option.bind_eq_some_iff.mp h
      exact Option.bind_eq_some_iff.mpr ⟨st₁, visit_mono hnested hone, ih hrest⟩

/-- Where an entry of the result comes from: a key that ends there, or one that goes on. -/
inductive Origin (nested : Bytes → Option GoMap) (full : Bytes)
    (seen : List (Bytes × List Bytes)) (rk : Bytes) : GoAny → Prop
  | leaf {kv : Bytes × List Bytes} (hmem : kv ∈ seen) (hplace : place full kv.1 = .leaf rk) :
      Origin nested full seen rk (.strings kv.2)
  | below {kv : Bytes × List Bytes} {m : GoMap} (hmem : kv ∈ seen)
      (hplace : place full kv.1 = .below rk) (hnested : nested rk = some m) :
      Origin nested full seen rk (.map m)

theorem Origin.mono {more : List (Bytes × List Bytes)} {rk : Bytes} {v : GoAny}
    (h : Origin nested full seen rk v) : Origin nested full (seen ++ more) rk v := by
  cases h with
  | leaf hmem hplace => exact .leaf (List.mem_append_left _ hmem) hplace
  | below hmem hplace hnested => exact .below (List.mem_append_left _ hmem) hplace hnested

/-- **The invariant of the loop**, after the parameters `seen`. -/
structure Visited (nested : Bytes → Option GoMap) (full : Bytes)
    (seen : List (Bytes × List Bytes)) (st : Loop) : Prop where
  origin : ∀ rk v, st.ret rk = some v → Origin nested full seen rk v
  written : ∀ kv ∈ seen, ∀ rk, place full kv.1 = .leaf rk ∨ place full kv.1 = .below rk →
    (st.ret rk).isSome
  mapped : ∀ rk, st.prefixMapped rk → (st.ret rk).isSome

/-- A round that writes the entry of its own key. -/
theorem Visited.write (h : Visited nested full seen st) {rk : Bytes} {v : GoAny}
    {mapped : Bytes → Bool}
    (hplace : ∀ rk', place full kv.1 = .leaf rk' ∨ place full kv.1 = .below rk' → rk' = rk)
    (horigin : Origin nested full (seen ++ [kv]) rk v)
    (hmapped : ∀ rk', rk' ≠ rk → mapped rk' = st.prefixMapped rk') :
    Visited nested full (seen ++ [kv]) ⟨Function.update st.ret rk (some v), mapped⟩ := by
  have hself : Function.update st.ret rk (some v) rk = some v := Function.update_self _ _ _
  have hother {rk' : Bytes} (hne : rk' ≠ rk) :
      Function.update st.ret rk (some v) rk' = st.ret rk' :=
    Function.update_of_ne hne _ _
  refine ⟨?_, ?_, ?_⟩
  · intro rk' v' (hv' : Function.update st.ret rk (some v) rk' = some v')
    by_cases heq : rk' = rk
    · subst heq
      rw [hself] at hv'
      exact Option.some.inj hv' ▸ horigin
    · rw [hother heq] at hv'
      exact (h.origin rk' v' hv').mono
  · intro kv' hmem rk' hplace'
    show (Function.update st.ret rk (some v) rk').isSome
    by_cases heq : rk' = rk
    · rw [heq, hself, Option.isSome_some]
    · rw [hother heq]
      rcases List.mem_append.mp hmem with hmem | hmem
      · exact h.written kv' hmem rk' hplace'
      · obtain rfl := List.mem_singleton.mp hmem
        exact absurd (hplace rk' hplace') heq
  · intro rk' (hrk' : mapped rk' = true)
    show (Function.update st.ret rk (some v) rk').isSome
    by_cases heq : rk' = rk
    · rw [heq, hself, Option.isSome_some]
    · rw [hother heq]
      exact h.mapped rk' (hmapped rk' heq ▸ hrk')

/-- A round that writes nothing. -/
theorem Visited.skip (h : Visited nested full seen st)
    (hplace : ∀ rk, place full kv.1 = .leaf rk ∨ place full kv.1 = .below rk →
      (st.ret rk).isSome) : Visited nested full (seen ++ [kv]) st where
  origin := fun rk v hv => (h.origin rk v hv).mono
  written := by
    intro kv' hmem rk hplace'
    rcases List.mem_append.mp hmem with hmem | hmem
    · exact h.written kv' hmem rk hplace'
    · obtain rfl := List.mem_singleton.mp hmem
      exact hplace rk hplace'
  mapped := h.mapped

/-- **One round** keeps the invariant. -/
theorem Visited.step (h : Visited nested full seen st)
    (hvisit : visit nested full st kv = some st') : Visited nested full (seen ++ [kv]) st' := by
  unfold visit at hvisit
  split at hvisit
  next hplace =>
    obtain rfl := Option.some.inj hvisit
    exact h.skip fun rk hrk => by simp [hplace] at hrk
  next rk hplace =>
    obtain rfl := Option.some.inj hvisit
    refine h.write ?_ (.leaf (by simp) hplace) fun _ _ => rfl
    intro rk' hrk'
    simpa [hplace, eq_comm] using hrk'
  next rk hplace =>
    split at hvisit
    next hmapped =>
      obtain rfl := Option.some.inj hvisit
      refine h.skip fun rk' hrk' => ?_
      obtain rfl : rk = rk' := by simpa [hplace] using hrk'
      exact h.mapped rk hmapped
    next hmapped =>
      obtain ⟨m, hm, rfl⟩ := Option.map_eq_some_iff.mp hvisit
      refine h.write ?_ (.below (by simp) hplace hm) fun rk' hne => Function.update_of_ne hne _ _
      intro rk' hrk'
      simpa [hplace, eq_comm] using hrk'

/-- **The whole loop** keeps it. -/
theorem Visited.run (h : Visited nested full seen st)
    (hrun : kvs.foldlM (visit nested full) st = some st') :
    Visited nested full (seen ++ kvs) st' := by
  induction kvs generalizing seen st with
  | nil =>
      obtain rfl := Option.some.inj hrun
      simpa using h
  | cons kv kvs ih =>
      obtain ⟨st₁, hone, hrest⟩ := Option.bind_eq_some_iff.mp hrun
      simpa using ih (h.step hone) hrest

theorem visited_empty : Visited nested full [] Loop.empty where
  origin := fun _ _ hv => by cases hv
  written := fun _ hmem => by cases hmem
  mapped := fun _ hmapped => by cases hmapped

end Loop

/-! ## Termination -/

/-- The length of the longest key. -/
def Values.longest (query : Values) : Nat := (query.entries.map fun kv => kv.1.length).foldr max 0

theorem Values.length_le_longest {query : Values} {kv : Bytes × List Bytes}
    (h : kv ∈ query.entries) : kv.1.length ≤ query.longest := by
  unfold longest
  generalize query.entries = kvs at h
  induction kvs with
  | nil => cases h
  | cons kv' kvs ih =>
      rw [List.map_cons, List.foldr_cons]
      rcases List.mem_cons.mp h with rfl | h
      · exact le_max_left _ _
      · exact le_max_of_le_right (ih h)

theorem length_trimSuffix_le (s : Bytes) : (trimSuffix s).length ≤ s.length := by
  unfold trimSuffix
  split
  · exact List.length_take_le' _ _
  · exact le_rfl

/-- A key that a call looks at is as long as the prefix and what is left of it. -/
theorem length_relativeKey {full k rk : Bytes} (h : relativeKey full k = some rk) :
    full.length + rk.length ≤ k.length := by
  unfold relativeKey at h
  split at h
  next hlooks =>
    have hrk : rk.length ≤ (trimPrefix k full).length :=
      Option.some.inj h ▸ length_trimSuffix_le _
    by_cases hstart : full <+: k
    · have hlen := hstart.length_le
      rw [trimPrefix, if_pos hstart, List.length_drop] at hrk
      omega
    · -- a key without the prefix is looked at when the prefix is empty, which starts every key
      have hkey : trimPrefix k full = k := if_neg hstart
      rcases hlooks with hempty | hne
      · exact absurd (hempty ▸ List.nil_prefix) hstart
      · exact absurd hkey hne
  next => cases h

/-- A key with a further dot is longer than the prefix. -/
theorem length_lt_of_below {full k rk : Bytes} (h : place full k = .below rk) :
    full.length < k.length := by
  unfold place at h
  split at h
  next => cases h
  next r hrelative =>
    split at h
    next prefixIndex hindex =>
      have hlen := length_relativeKey hrelative
      have hdot : dot ∈ r := by
        by_contra hnot
        rw [indexByte, List.idxOf?_eq_none_iff.mpr hnot] at hindex
        cases hindex
      have := List.length_pos_of_mem hdot
      omega
    next => cases h

/-- The prefix of a call is short only for the first two calls: those with nothing in it, or with
an empty segment. -/
theorem length_le_fullPrefix {pre : List Bytes} (h : 2 ≤ pre.length) :
    pre.length ≤ (fullPrefix pre).length := by
  have hjoin : pre.length ≤ (join pre).length + 1 := length_le_length_intercalate pre
  rw [fullPrefix, if_pos (by omega), List.length_append, List.length_singleton]
  exact hjoin

section Terminates

variable {query : Values} (order : Order query)

/-- **Enough fuel**: the prefix grows by one with every call, and no call is made for a prefix
that is longer than every key. -/
theorem exists_buildMap {fuel : Nat} {pre : List Bytes} (hpos : 0 < fuel)
    (hfuel : query.longest + 2 ≤ fuel + pre.length) : ∃ m, buildMap order fuel pre = some m := by
  induction fuel generalizing pre with
  | zero => exact absurd hpos (lt_irrefl 0)
  | succ fuel ih =>
      have hcalls : ∀ kv ∈ order.entries pre, ∀ rk, place (fullPrefix pre) kv.1 = .below rk →
          ∃ m, buildMap order fuel (pre ++ [rk]) = some m := by
        intro kv hmem rk hplace
        have hlong := Values.length_le_longest ((order.perm pre).mem_iff.mp hmem)
        have hlt := length_lt_of_below hplace
        apply ih
        · by_contra hzero
          have hfull := length_le_fullPrefix (show 2 ≤ pre.length by omega)
          omega
        · rw [List.length_append, List.length_singleton]
          omega
      obtain ⟨st, hst⟩ := exists_foldlM_visit hcalls Loop.empty
      exact ⟨st.ret, by rw [buildMap, hst, Option.map_some]⟩

/-- More fuel does not change the result. -/
theorem buildMap_mono {fuel more : Nat} {pre : List Bytes} {m : GoMap} (hle : fuel ≤ more)
    (h : buildMap order fuel pre = some m) : buildMap order more pre = some m := by
  induction fuel generalizing more pre m with
  | zero => cases h
  | succ fuel ih =>
      obtain ⟨more, rfl⟩ : ∃ n, more = n + 1 := ⟨more - 1, by omega⟩
      obtain ⟨st, hst, rfl⟩ := Option.map_eq_some_iff.mp h
      refine Option.map_eq_some_iff.mpr ⟨st, ?_, rfl⟩
      exact foldlM_visit_mono (fun rk m' hm' => ih (by omega) hm') hst

/-- **`buildMap` terminates**, whatever the keys are and in whatever order they come. -/
theorem buildMap_terminates : ∃ m, ∀ fuel, query.longest + 2 ≤ fuel →
    buildMap order fuel [] = some m := by
  have henough : ∃ m, buildMap order (query.longest + 2) [] = some m :=
    exists_buildMap order (Nat.succ_pos _) le_rfl
  obtain ⟨m, hm⟩ := henough
  exact ⟨m, fun fuel hfuel => buildMap_mono order hfuel hm⟩

end Terminates

/-- The key `.a` leads to a call for an empty segment, which finds it again, and so to a third
call; the prefix of that one is two dots. -/
example :
    let query : Values := ⟨[([46, 97], [[49]])], by decide⟩
    let order : Order query := ⟨fun _ => query.entries, fun _ => .refl _⟩
    (buildMap order 2 []).isSome = false ∧ (buildMap order 3 []).isSome = true := by decide

end Story.Server
