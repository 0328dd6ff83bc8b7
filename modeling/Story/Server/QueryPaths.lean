/-
# Story.Server.QueryPaths -- every parameter is found under its path

The path of a key are its segments between the dots, without a trailing `[]`. When no key is
the beginning of another one, the nested map has the values of every key at its path and no
other leaf, whatever order the calls range in.

The point is what a call looks at: a key comes behind the prefix of the call, as a string, just
when the path of the key goes on behind the segments of the prefix. That takes segments that
are not empty, since the prefix of an empty segment is empty and lets every key through.
-/
import Story.Server.QueryMap

namespace Story.Server

open Story.Eth Story.Collections.Segments

/-! ## The path of a key -/

/-- The path of a key. -/
def segments (k : Bytes) : List Bytes := (trimSuffix k).splitOn dot

theorem join_segments (k : Bytes) : join (segments k) = trimSuffix k := List.intercalate_splitOn dot

/-- Segments of which a prefix is made. -/
def Proper (pre : List Bytes) : Prop := ∀ s ∈ pre, s ≠ [] ∧ dot ∉ s

theorem trimSuffix_append_brackets (s : Bytes) : trimSuffix (s ++ brackets) = s := by
  rw [trimSuffix, if_pos (List.suffix_append s brackets), List.length_append, Nat.add_sub_cancel,
    List.take_left]

theorem trimSuffix_cases (s : Bytes) : s = trimSuffix s ∨ s = trimSuffix s ++ brackets := by
  by_cases h : brackets <:+ s
  · obtain ⟨s', rfl⟩ := h
    exact .inr (by rw [trimSuffix_append_brackets])
  · exact .inl (if_neg h).symm

/-- The brackets are behind the last dot. -/
theorem trimSuffix_append_dot (s r : Bytes) :
    trimSuffix (s ++ dot :: r) = s ++ dot :: trimSuffix r := by
  have hdot : dot ∉ brackets := by decide
  by_cases h : brackets <:+ r
  · obtain ⟨r', rfl⟩ := h
    have hassoc : s ++ dot :: (r' ++ brackets) = (s ++ dot :: r') ++ brackets := by simp
    rw [hassoc, trimSuffix_append_brackets, trimSuffix_append_brackets]
  · have hlong : ¬ brackets <:+ s ++ dot :: r := fun hsuffix =>
      h ((suffix_append_cons_iff hdot).mp hsuffix)
    rw [trimSuffix, if_neg hlong, trimSuffix, if_neg h]

theorem fullPrefix_of_proper {pre : List Bytes} (hne : pre ≠ []) (h : Proper pre) :
    fullPrefix pre = join pre ++ [dot] := by
  obtain ⟨s, rest, rfl⟩ := List.exists_cons_of_ne_nil hne
  have hs : 0 < s.length := List.length_pos_iff.mpr (h s List.mem_cons_self).1
  have hjoin : 0 < (join (s :: rest)).length := by
    cases rest with
    | nil => simpa [join] using hs
    | cons t rest =>
        rw [join, List.intercalate_cons_cons, List.length_append, List.length_append]
        omega
  exact if_pos hjoin

theorem relativeKey_append {full : Bytes} (hne : full ≠ []) (tail : Bytes) :
    relativeKey full (full ++ tail) = some (trimSuffix tail) := by
  have htrim : trimPrefix (full ++ tail) full = tail := by
    rw [trimPrefix, if_pos (List.prefix_append full tail), List.drop_left]
  have hlooks : full = [] ∨ trimPrefix (full ++ tail) full ≠ full ++ tail := by
    right
    rw [htrim]
    intro heq
    have := congrArg List.length heq
    have hpos := List.length_pos_iff.mpr hne
    rw [List.length_append] at this
    omega
  rw [relativeKey, if_pos hlooks, htrim]

/-- A call looks only at keys that start with its prefix. -/
theorem exists_tail {full k r : Bytes} (hne : full ≠ []) (h : relativeKey full k = some r) :
    ∃ tail, k = full ++ tail := by
  by_contra hnot
  have hstart : ¬ full <+: k := fun ⟨tail, heq⟩ => hnot ⟨tail, heq.symm⟩
  have hkey : trimPrefix k full = k := if_neg hstart
  rw [relativeKey, if_neg (not_or.mpr ⟨hne, not_not.mpr hkey⟩)] at h
  cases h

/-- **What a call looks at**: the keys whose path goes on behind the prefix. -/
theorem relativeKey_iff {pre : List Bytes} (h : Proper pre) {k r : Bytes} :
    relativeKey (fullPrefix pre) k = some r ↔ segments k = pre ++ r.splitOn dot := by
  by_cases hnil : pre = []
  · subst hnil
    have hall : relativeKey (fullPrefix []) k = some (trimSuffix k) := by
      simp [relativeKey, fullPrefix, join, trimPrefix]
    rw [hall, Option.some_inj, List.nil_append, segments, splitOn_inj]
  -- from here on the prefix is the join of the segments, and a dot
  have hfull := fullPrefix_of_proper hnil h
  have hne : fullPrefix pre ≠ [] := by simp [hfull]
  have hassoc (tail : Bytes) : fullPrefix pre ++ tail = join pre ++ dot :: tail := by simp [hfull]
  have hsplit (r : Bytes) : (join pre ++ dot :: r).splitOn dot = pre ++ r.splitOn dot :=
    splitOn_intercalate_append (fun s hs => (h s hs).2) hnil
  constructor
  · intro hr
    obtain ⟨tail, rfl⟩ := exists_tail hne hr
    rw [relativeKey_append hne] at hr
    rw [segments, hassoc, trimSuffix_append_dot, hsplit, Option.some.inj hr]
  · intro hpath
    have hname : trimSuffix k = join pre ++ dot :: r := by
      rw [← hsplit] at hpath
      exact splitOn_inj.mp hpath
    have hkey : ∃ tail, k = fullPrefix pre ++ tail := by
      rcases trimSuffix_cases k with hk | hk
      · exact ⟨r, by rw [hk, hname, hassoc]⟩
      · exact ⟨r ++ brackets, by rw [hk, hname, hassoc]; simp⟩
    obtain ⟨tail, rfl⟩ := hkey
    rw [hassoc, trimSuffix_append_dot] at hname
    have htail : dot :: trimSuffix tail = dot :: r := List.append_cancel_left hname
    rw [relativeKey_append hne, (List.cons.inj htail).2]

/-- A key ends at the prefix of a call and `s`. -/
theorem place_eq_leaf_iff {pre : List Bytes} (h : Proper pre) {k s : Bytes} :
    place (fullPrefix pre) k = .leaf s ↔ segments k = pre ++ [s] := by
  constructor
  · intro hplace
    unfold place at hplace
    split at hplace
    next => cases hplace
    next rk hrelative =>
      split at hplace
      next => cases hplace
      next hindex =>
        obtain rfl : rk = s := Place.leaf.inj hplace
        have hdot : dot ∉ rk := List.idxOf?_eq_none_iff.mp hindex
        rw [(relativeKey_iff h).mp hrelative, splitOn_eq_singleton_iff.mpr hdot]
  · intro hpath
    have hdot : dot ∉ s := by
      have hmem : s ∈ segments k := by simp [hpath]
      exact not_mem_of_mem_splitOn hmem
    have hrelative : relativeKey (fullPrefix pre) k = some s := by
      rw [relativeKey_iff h, hpath, splitOn_eq_singleton_iff.mpr hdot]
    simp only [place, hrelative, indexByte, List.idxOf?_eq_none_iff.mpr hdot]

/-- A key goes on behind the prefix of a call and `s`. -/
theorem place_eq_below_iff {pre : List Bytes} (h : Proper pre) {k s : Bytes} :
    place (fullPrefix pre) k = .below s ↔ ∃ t rest, segments k = pre ++ s :: t :: rest := by
  have hplace {r : Bytes} (hdot : dot ∉ s)
      (hrelative : relativeKey (fullPrefix pre) k = some (s ++ dot :: r)) :
      place (fullPrefix pre) k = .below s := by
    simp only [place, hrelative, indexByte, idxOf?_append_cons hdot, List.take_left]
  constructor
  · intro hbelow
    unfold place at hbelow
    split at hbelow
    next => cases hbelow
    next rk hrelative =>
      split at hbelow
      next prefixIndex hindex =>
        have hmem : dot ∈ rk := by
          by_contra hnot
          rw [indexByte, List.idxOf?_eq_none_iff.mpr hnot] at hindex
          cases hindex
        -- the first dot cuts off the first segment
        obtain ⟨first, r, rfl, hfirst⟩ := List.eq_append_cons_of_mem hmem
        rw [indexByte, idxOf?_append_cons hfirst] at hindex
        obtain rfl := Option.some.inj hindex
        obtain rfl : first = s := by simpa using hbelow
        obtain ⟨t, rest, hr⟩ := List.exists_cons_of_ne_nil (List.splitOn_ne_nil dot r)
        refine ⟨t, rest, ?_⟩
        rw [(relativeKey_iff h).mp hrelative, List.splitOn_append_cons_self,
          splitOn_eq_singleton_iff.mpr hfirst, hr, List.singleton_append]
      next => cases hbelow
  · rintro ⟨t, rest, hpath⟩
    have hdots : ∀ l ∈ s :: t :: rest, dot ∉ l := by
      intro l hl
      have hmem : l ∈ segments k := hpath ▸ List.mem_append_right pre hl
      exact not_mem_of_mem_splitOn hmem
    apply hplace (hdots s List.mem_cons_self)
    have hjoin : s ++ dot :: join (t :: rest) = join (s :: t :: rest) := by
      simp [join, List.intercalate_cons_cons]
    rw [relativeKey_iff h, hpath, hjoin, join,
      List.splitOn_intercalate dot hdots (List.cons_ne_nil _ _)]

/-! ## Keys that do not meet -/

/-- The keys, without a trailing `[]`, are distinct and have no empty segment, and none of them
is the beginning of another one up to a dot. -/
structure Values.WellFormed (query : Values) : Prop where
  distinct : (query.entries.map fun kv => trimSuffix kv.1).Nodup
  nonempty : ∀ kv ∈ query.entries, ∀ s ∈ segments kv.1, s ≠ []
  apart : ∀ kv ∈ query.entries, ∀ kv' ∈ query.entries,
    ¬ trimSuffix kv.1 ++ [dot] <+: trimSuffix kv'.1

namespace Values.WellFormed

variable {query : Values} (h : query.WellFormed) {kv kv' : Bytes × List Bytes}

include h

theorem eq_of_segments (hkv : kv ∈ query.entries) (hkv' : kv' ∈ query.entries)
    (heq : segments kv.1 = segments kv'.1) : kv = kv' :=
  List.inj_on_of_nodup_map h.distinct hkv hkv' (splitOn_inj.mp heq)

/-- No path goes on behind another one. -/
theorem segments_ne (hkv : kv ∈ query.entries) (hkv' : kv' ∈ query.entries) {t : Bytes}
    {rest : List Bytes} : segments kv'.1 ≠ segments kv.1 ++ t :: rest := by
  intro heq
  apply h.apart kv hkv kv' hkv'
  have hne : segments kv.1 ≠ [] := List.splitOn_ne_nil _ _
  have hjoin : trimSuffix kv'.1 = trimSuffix kv.1 ++ dot :: join (t :: rest) :=
    calc trimSuffix kv'.1 = join (segments kv.1 ++ t :: rest) := by rw [← heq, join_segments]
      _ = join (segments kv.1) ++ dot :: join (t :: rest) :=
          intercalate_append hne (List.cons_ne_nil t rest)
      _ = trimSuffix kv.1 ++ dot :: join (t :: rest) := by rw [join_segments]
  exact ⟨join (t :: rest), by rw [hjoin]; simp⟩

theorem proper_append {pre : List Bytes} (hpre : Proper pre) (hkv : kv ∈ query.entries) {s : Bytes}
    {rest : List Bytes} (hpath : segments kv.1 = pre ++ s :: rest) : Proper (pre ++ [s]) := by
  intro l hl
  rcases List.mem_append.mp hl with hl | hl
  · exact hpre l hl
  · obtain rfl := List.mem_singleton.mp hl
    have hmem : l ∈ segments kv.1 := by simp [hpath]
    exact ⟨h.nonempty kv hkv l hmem, not_mem_of_mem_splitOn hmem⟩

end Values.WellFormed

/-! ## The entries of a call -/

section Entries

variable {query : Values} {order : Order query} {fuel : Nat} {pre : List Bytes} {m : GoMap}
  {kv : Bytes × List Bytes} {s t : Bytes} {rest : List Bytes}

/-- The loop of a call that returned. -/
theorem exists_visited (h : buildMap order (fuel + 1) pre = some m) : ∃ st : Loop, st.ret = m ∧
    Visited (fun rk => buildMap order fuel (pre ++ [rk])) (fullPrefix pre) (order.entries pre)
      st := by
  obtain ⟨st, hst, hret⟩ := Option.map_eq_some_iff.mp h
  exact ⟨st, hret, by simpa using visited_empty.run hst⟩

/-- Every entry is the values of a key that ends there, or the map of the keys that go on. -/
theorem entry_origin (hpre : Proper pre) (h : buildMap order (fuel + 1) pre = some m) {v : GoAny}
    (hv : m s = some v) :
    (∃ kv ∈ query.entries, segments kv.1 = pre ++ [s] ∧ v = .strings kv.2) ∨
      ∃ kv ∈ query.entries, ∃ t rest m', segments kv.1 = pre ++ s :: t :: rest ∧
        buildMap order fuel (pre ++ [s]) = some m' ∧ v = .map m' := by
  obtain ⟨st, rfl, hvisited⟩ := exists_visited h
  cases hvisited.origin s v hv with
  | leaf hmem hplace =>
      exact .inl ⟨_, (order.perm pre).mem_iff.mp hmem, (place_eq_leaf_iff hpre).mp hplace, rfl⟩
  | below hmem hplace hnested =>
      obtain ⟨t, rest, hpath⟩ := (place_eq_below_iff hpre).mp hplace
      exact .inr ⟨_, (order.perm pre).mem_iff.mp hmem, t, rest, _, hpath, hnested, rfl⟩

variable (hwf : query.WellFormed)

include hwf

/-- A key that ends here has its values here. -/
theorem entry_leaf (hpre : Proper pre) (h : buildMap order (fuel + 1) pre = some m)
    (hkv : kv ∈ query.entries) (hpath : segments kv.1 = pre ++ [s]) :
    m s = some (.strings kv.2) := by
  obtain ⟨st, rfl, hvisited⟩ := exists_visited h
  obtain ⟨v, hv⟩ := Option.isSome_iff_exists.mp (hvisited.written kv
    ((order.perm pre).mem_iff.mpr hkv) s (.inl ((place_eq_leaf_iff hpre).mpr hpath)))
  rcases entry_origin hpre h hv with ⟨kv', hkv', hpath', rfl⟩ | ⟨kv', hkv', t, rest, m', hpath', _⟩
  · rw [hv, hwf.eq_of_segments hkv' hkv (hpath'.trans hpath.symm)]
  · -- a key that goes on would have this one as its beginning
    have hbehind : segments kv'.1 = segments kv.1 ++ t :: rest := by simp [hpath', hpath]
    exact absurd hbehind (hwf.segments_ne hkv hkv')

/-- A key that goes on is in the map of the next call. -/
theorem entry_below (hpre : Proper pre) (h : buildMap order (fuel + 1) pre = some m)
    (hkv : kv ∈ query.entries) (hpath : segments kv.1 = pre ++ s :: t :: rest) :
    ∃ m', buildMap order fuel (pre ++ [s]) = some m' ∧ m s = some (.map m') := by
  obtain ⟨st, rfl, hvisited⟩ := exists_visited h
  obtain ⟨v, hv⟩ := Option.isSome_iff_exists.mp (hvisited.written kv
    ((order.perm pre).mem_iff.mpr hkv) s (.inr ((place_eq_below_iff hpre).mpr ⟨t, rest, hpath⟩)))
  rcases entry_origin hpre h hv with ⟨kv', hkv', hpath', _⟩ | ⟨_, _, _, _, m', _, hnested, rfl⟩
  · have hbehind : segments kv.1 = segments kv'.1 ++ t :: rest := by simp [hpath', hpath]
    exact absurd hbehind (hwf.segments_ne hkv' hkv)
  · exact ⟨m', hnested, hv⟩

end Entries

/-! ## Leaves -/

/-- The values that a nested map has at a path, if it has a leaf there. -/
def leafAt : GoMap → List Bytes → Option (List Bytes)
  | _, [] => none
  | m, [s] =>
      match m s with
      | some (.strings vs) => some vs
      | _ => none
  | m, s :: t :: rest =>
      match m s with
      | some (.map m') => leafAt m' (t :: rest)
      | _ => none

theorem leafAt_singleton {m : GoMap} {s : Bytes} {vs : List Bytes} :
    leafAt m [s] = some vs ↔ m s = some (.strings vs) := by
  rw [leafAt]
  split
  next vs' heq => simp [heq]
  next hother =>
    constructor
    · intro h
      cases h
    · intro h
      exact absurd h (hother vs)

theorem leafAt_cons_cons {m : GoMap} {s t : Bytes} {rest : List Bytes} {vs : List Bytes} :
    leafAt m (s :: t :: rest) = some vs ↔
      ∃ m', m s = some (.map m') ∧ leafAt m' (t :: rest) = some vs := by
  rw [leafAt]
  split
  next m' heq => simp [heq]
  next hother =>
    constructor
    · intro h
      cases h
    · rintro ⟨m', h, _⟩
      exact absurd h (hother m')

section Law

variable {query : Values} {order order' : Order query} {fuel : Nat} {pre : List Bytes}
variable {m m' : GoMap}

/-- **The leaves of a call** are the values of the keys behind its prefix. -/
theorem leafAt_buildMap (hwf : query.WellFormed) (hpre : Proper pre)
    (h : buildMap order fuel pre = some m) (s : Bytes) (path : List Bytes) (vs : List Bytes) :
    leafAt m (s :: path) = some vs ↔
      ∃ kv ∈ query.entries, segments kv.1 = pre ++ s :: path ∧ kv.2 = vs := by
  induction fuel generalizing pre m s path with
  | zero => cases h
  | succ fuel ih =>
      cases path with
      | nil =>
          -- an entry of this map
          rw [leafAt_singleton]
          constructor
          · intro hleaf
            rcases entry_origin hpre h hleaf with ⟨kv, hkv, hpath, heq⟩ | ⟨_, _, _, _, _, _, _, heq⟩
            · exact ⟨kv, hkv, hpath, (GoAny.strings.inj heq).symm⟩
            · cases heq
          · rintro ⟨kv, hkv, hpath, rfl⟩
            exact entry_leaf hwf hpre h hkv hpath
      | cons t rest =>
          -- an entry of the map below `s`, which a nested call has built
          have hassoc : pre ++ s :: t :: rest = (pre ++ [s]) ++ t :: rest := by simp
          rw [leafAt_cons_cons, hassoc]
          constructor
          · rintro ⟨m', hm', hleaf⟩
            rcases entry_origin hpre h hm' with
              ⟨_, _, _, heq⟩ | ⟨kv, hkv, _, _, _, hpath, hnested, heq⟩
            · cases heq
            · obtain rfl := GoAny.map.inj heq
              exact (ih (hwf.proper_append hpre hkv hpath) hnested t rest).mp hleaf
          · rintro ⟨kv, hkv, hpath, hvs⟩
            rw [← hassoc] at hpath
            obtain ⟨m', hnested, hm'⟩ := entry_below hwf hpre h hkv hpath
            refine ⟨m', hm', ?_⟩
            apply (ih (hwf.proper_append hpre hkv hpath) hnested t rest).mpr
            exact ⟨kv, hkv, hpath.trans hassoc, hvs⟩

/-- **The order does not matter**: two calls with the same prefix return the same map. -/
theorem buildMap_unique (hwf : query.WellFormed) (hpre : Proper pre)
    (h : buildMap order fuel pre = some m) (h' : buildMap order' fuel pre = some m') : m = m' := by
  induction fuel generalizing order order' pre m m' with
  | zero => cases h
  | succ fuel ih =>
      -- an entry of one is an entry of the other; the argument is the same both ways
      have hsub {o o' : Order query} {n n' : GoMap} (hn : buildMap o (fuel + 1) pre = some n)
          (hn' : buildMap o' (fuel + 1) pre = some n') {s : Bytes} {v : GoAny}
          (hv : n s = some v) : n' s = some v := by
        rcases entry_origin hpre hn hv with ⟨kv, hkv, hpath, rfl⟩ |
          ⟨kv, hkv, t, rest, below, hpath, hnested, rfl⟩
        · exact entry_leaf hwf hpre hn' hkv hpath
        · obtain ⟨below', hnested', hentry⟩ := entry_below hwf hpre hn' hkv hpath
          rw [hentry, ih (hwf.proper_append hpre hkv hpath) hnested hnested']
      funext s
      apply Option.ext
      intro v
      exact ⟨hsub h h', hsub h' h⟩

end Law

/-- **Query decoding terminates and keeps every parameter.** Whatever the keys are and in whatever
order the calls range over them, `buildMap` returns, and so does the decoding. When the keys do
not meet, what it returns does not depend on the order, and its leaves are the values of the keys
at their paths. -/
theorem query_decoding_keeps_parameters (query : Values) :
    (∀ order : Order query, ∃ m, ∀ fuel, query.longest + 2 ≤ fuel →
      buildMap order fuel [] = some m ∧
        ∀ (α : Type) (D : Decoder α), ∃ r, queryMapToVal D order fuel = some r) ∧
    (query.WellFormed → ∃ m,
      (∀ (order : Order query) (fuel : Nat), query.longest + 2 ≤ fuel →
        buildMap order fuel [] = some m) ∧
      ∀ path vs, leafAt m path = some vs ↔
        ∃ kv ∈ query.entries, segments kv.1 = path ∧ kv.2 = vs) := by
  constructor
  · intro order
    obtain ⟨m, hm⟩ := buildMap_terminates order
    refine ⟨m, fun fuel hfuel => ⟨hm fuel hfuel, fun α D => ?_⟩⟩
    unfold queryMapToVal
    split
    · exact ⟨_, rfl⟩
    · exact ⟨_, by rw [hm fuel hfuel, Option.map_some]⟩
  · intro hwf
    have hproper : Proper [] := fun s hs => by cases hs
    -- the order in which the entries are listed stands for all of them
    let listed : Order query := ⟨fun _ => query.entries, fun _ => .refl _⟩
    obtain ⟨m, hm⟩ := buildMap_terminates listed
    refine ⟨m, ?_, ?_⟩
    · intro order fuel hfuel
      obtain ⟨m', hm'⟩ := buildMap_terminates order
      rw [hm' fuel hfuel, buildMap_unique hwf hproper (hm' fuel hfuel) (hm fuel hfuel)]
    · intro path vs
      cases path with
      | nil =>
          constructor
          · intro h
            cases h
          · rintro ⟨kv, _, hnil, _⟩
            exact absurd hnil (List.splitOn_ne_nil _ _)
      | cons s path => exact leafAt_buildMap hwf hproper (hm _ le_rfl) s path vs

/-- The parameters of `a.b=1&a.c[]=2&a.c[]=3`. -/
def sampleQuery : Values where
  entries := [([97, 46, 98], [[49]]), ([97, 46, 99, 91, 93], [[50], [51]])]
  nodup := by decide

theorem sampleQuery_wellFormed : sampleQuery.WellFormed where
  distinct := by decide
  nonempty := by decide
  apart := by decide

/-- The calls range in different orders, and the values of `a.c[]` are found under `a` and `c`. -/
theorem both_values_found :
    let order : Order sampleQuery :=
      ⟨fun pre => if pre = [] then sampleQuery.entries.reverse else sampleQuery.entries, by
        intro pre
        split
        · exact List.reverse_perm _
        · exact .refl _⟩
    ∃ m, buildMap order 7 [] = some m ∧ leafAt m [[97], [99]] = some [[50], [51]] ∧
      leafAt m [[97], [100]] = none := by
  intro order
  obtain ⟨m, hm, hleaf⟩ := (query_decoding_keeps_parameters sampleQuery).2 sampleQuery_wellFormed
  refine ⟨m, hm order 7 (by decide), ?_, ?_⟩
  · exact (hleaf _ _).mpr ⟨([97, 46, 99, 91, 93], [[50], [51]]), by decide, by decide, rfl⟩
  · apply Option.eq_none_iff_forall_ne_some.mpr
    intro vs hvs
    obtain ⟨kv, hkv, hpath, _⟩ := (hleaf _ _).mp hvs
    have hno : ∀ kv ∈ sampleQuery.entries, segments kv.1 ≠ [[97], [100]] := by decide
    exact hno kv hkv hpath

end Story.Server
