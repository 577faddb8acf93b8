import Mathlib.Algebra.BigOperators.Group.Finset.Basic
import Mathlib.Data.List.Nodup
import Equilibration.Stopwatches

/-!
# StopwatchPaths — the path of the stopwatches that run

The keys that run are a path into a tree that changes all the time, and
nothing in the tree says where the path ends. `Stopwatches.Tidy` is what
keeps the two together: the path leads to a stopwatch, and the stopwatches
along it are just those that run. Starts and stops keep it
(`Tidy.start`, `Tidy.stop`), so the current stopwatch is always found.

A start and a stop change one dial, that at the end of the path
(`Stopwatches.dial?_start`, `Stopwatches.dial?_stop`). All that is said of
times elsewhere is said of dials.
-/

namespace Equilibration

namespace WatchRack

/-- The keys of a rack. -/
def keys (rack : WatchRack) : List String := rack.map Prod.fst

theorem lookup_update (key : String) (f : Stopwatch → Stopwatch)
    (rack : WatchRack) (k : String) :
    (update key f rack).lookup k
      = if k = key then some (f ((rack.lookup key).getD {}))
        else rack.lookup k := by
  induction rack with
  | nil =>
    by_cases h : k = key
    · subst h
      simp [update]
    · have hne : (k == key) = false := beq_eq_false_iff_ne.mpr h
      simp [update, List.lookup_cons, hne, h]
  | cons entry rest ih =>
    obtain ⟨k', w⟩ := entry
    by_cases hkey : k' = key
    · subst hkey
      by_cases h : k = k'
      · subst h
        simp [update]
      · have hne : (k == k') = false := beq_eq_false_iff_ne.mpr h
        simp [update, List.lookup_cons, hne, h]
    · have hne : (key == k') = false := beq_eq_false_iff_ne.mpr (Ne.symm hkey)
      simp only [update, if_neg hkey, List.lookup_cons, hne]
      by_cases h : k = k'
      · subst h
        simp [hkey]
      · have hne' : (k == k') = false := beq_eq_false_iff_ne.mpr h
        simp only [hne', ih]

theorem mem_keys_iff {rack : WatchRack} {key : String} :
    key ∈ rack.keys ↔ (rack.lookup key).isSome := by
  induction rack with
  | nil => simp [keys]
  | cons entry rest ih =>
    obtain ⟨k, w⟩ := entry
    by_cases h : key = k
    · subst h
      simp [keys]
    · have hne : (key == k) = false := beq_eq_false_iff_ne.mpr h
      rw [List.lookup_cons, hne, ← ih]
      simp [keys, h]

theorem nodup_update {rack : WatchRack} (h : rack.keys.Nodup) (key : String)
    (f : Stopwatch → Stopwatch) : (update key f rack).keys.Nodup := by
  induction rack with
  | nil => exact List.nodup_singleton key
  | cons entry rest ih =>
    obtain ⟨k, w⟩ := entry
    obtain ⟨hk, hrest⟩ := List.nodup_cons.mp h
    by_cases hkey : k = key
    · rw [update, if_pos hkey]
      exact h
    · rw [update, if_neg hkey]
      refine List.nodup_cons.mpr ⟨?_, ih hrest⟩
      intro hmem
      have hlookup := mem_keys_iff.mp hmem
      rw [lookup_update, if_neg hkey] at hlookup
      exact hk (mem_keys_iff.mpr hlookup)

/-- A rack that has no key twice is read off its entries. -/
theorem lookup_of_mem {rack : WatchRack} (h : rack.keys.Nodup)
    {entry : String × Stopwatch} (hentry : entry ∈ rack) :
    rack.lookup entry.1 = some entry.2 := by
  induction rack with
  | nil => exact absurd hentry List.not_mem_nil
  | cons first rest ih =>
    obtain ⟨k, w⟩ := first
    obtain ⟨hk, hrest⟩ := List.nodup_cons.mp h
    rcases List.mem_cons.mp hentry with rfl | hentry
    · exact List.lookup_cons_self
    · have hne : (entry.1 == k) = false :=
        beq_eq_false_iff_ne.mpr fun heq =>
          hk (List.mem_map.mpr ⟨entry, hentry, heq⟩)
      rw [List.lookup_cons, hne]
      exact ih hrest hentry

end WatchRack

namespace Stopwatch

/-- The stopwatch at the end of a path that starts inside this one. -/
def at? : List String → Stopwatch → Option Stopwatch
  | [], w => some w
  | key :: path, w => (w.inner.lookup key).bind (at? path)

/-- What a stopwatch shows of itself, whatever is inside it. -/
def dial (w : Stopwatch) : Option Nat × Nat := (w.since, w.elapsed)

@[simp] theorem since_stop (w : Stopwatch) (now : Nat) :
    (w.stop now).since = none := by
  unfold stop
  split
  · assumption
  · rfl

@[simp] theorem inner_stop (w : Stopwatch) (now : Nat) :
    (w.stop now).inner = w.inner := by
  unfold stop
  split <;> rfl

theorem at?_append (w : Stopwatch) (p q : List String) :
    w.at? (p ++ q) = (w.at? p).bind (at? q) := by
  induction p generalizing w with
  | nil => rfl
  | cons key p ih =>
    rw [List.cons_append, at?, at?]
    cases w.inner.lookup key with
    | none => rfl
    | some v => exact ih v

/-- A path that leads to a stopwatch can be adjusted at its end. -/
theorem exists_adjust? {w v : Stopwatch} {p : List String}
    (h : w.at? p = some v) (f : Stopwatch → Stopwatch) :
    ∃ w', w.adjust? f p = some w' := by
  induction p generalizing w with
  | nil => exact ⟨f w, rfl⟩
  | cons key p ih =>
    obtain ⟨u, hu, hv⟩ := Option.bind_eq_some_iff.mp h
    obtain ⟨u', hu'⟩ := ih hv
    rw [adjust?, hu, Option.bind_eq_bind, Option.bind_some, hu']
    exact ⟨_, rfl⟩

theorem of_adjust?_cons {w w' : Stopwatch} {key : String} {p : List String}
    {f : Stopwatch → Stopwatch} (h : w.adjust? f (key :: p) = some w') :
    ∃ v v', w.inner.lookup key = some v ∧ v.adjust? f p = some v'
      ∧ w'
        = { w with inner := WatchRack.update key (fun _ => v') w.inner } := by
  obtain ⟨v, hv, h⟩ := Option.bind_eq_some_iff.mp h
  obtain ⟨v', hv', h⟩ := Option.bind_eq_some_iff.mp h
  exact ⟨v, v', hv, hv', (Option.some.inj h).symm⟩

/-- Below the end of the path there is what the adjustment put there. -/
theorem at?_adjust {w w' : Stopwatch} {p : List String}
    {f : Stopwatch → Stopwatch} (h : w.adjust? f p = some w')
    (q : List String) :
    w'.at? (p ++ q) = (w.at? p).bind fun v => (f v).at? q := by
  induction p generalizing w w' with
  | nil =>
    cases h
    rfl
  | cons key p ih =>
    obtain ⟨v, v', hv, hv', rfl⟩ := of_adjust?_cons h
    rw [List.cons_append, at?, at?, WatchRack.lookup_update, if_pos rfl, hv]
    exact ih hv'

/-- Elsewhere the dials are the same. -/
theorem dial_adjust_of_not_prefix {w w' : Stopwatch} {p q : List String}
    {f : Stopwatch → Stopwatch} (h : w.adjust? f p = some w') (hq : ¬ p <+: q) :
    (w'.at? q).map dial = (w.at? q).map dial := by
  induction p generalizing w w' q with
  | nil => exact absurd List.nil_prefix hq
  | cons key p ih =>
    obtain ⟨v, v', hv, hv', rfl⟩ := of_adjust?_cons h
    cases q with
    | nil => rfl
    | cons k q =>
      rw [at?, at?, WatchRack.lookup_update]
      by_cases hk : k = key
      · subst hk
        rw [if_pos rfl, hv]
        exact ih hv' fun hp => hq (List.cons_prefix_cons.mpr ⟨rfl, hp⟩)
      · rw [if_neg hk]

/-- Starting a stopwatch inside another one sets its dial. -/
theorem dial_startInner (w : Stopwatch) (key : String) (now : Nat)
    (q : List String) :
    ((w.startInner key now).at? q).map dial
      = if q = [key] then some (some now, ((w.at? [key]).map elapsed).getD 0)
        else (w.at? q).map dial := by
  cases q with
  | nil => rfl
  | cons k q =>
    rw [at?, startInner, WatchRack.lookup_update]
    by_cases hk : k = key
    · subst hk
      rw [if_pos rfl]
      cases q with
      | nil =>
        rw [if_pos rfl, at?]
        cases w.inner.lookup k <;> rfl
      | cons k' q =>
        -- what was inside it stays, and nothing is inside a new one
        rw [if_neg (by simp), at?]
        cases w.inner.lookup k <;> rfl
    · rw [if_neg hk, if_neg (by simp [hk]), at?]

end Stopwatch

namespace Stopwatches

variable {s : Stopwatches}

/-- The tree as one stopwatch that never runs. -/
def root (s : Stopwatches) : Stopwatch := { inner := s.watches }

/-- The stopwatch at the end of a path. -/
def at? (s : Stopwatches) : List String → Option Stopwatch
  | [] => none
  | key :: path => s.root.at? (key :: path)

theorem at?_eq (s : Stopwatches) {path : List String} (h : path ≠ []) :
    s.at? path = s.root.at? path := by
  cases path with
  | nil => exact absurd rfl h
  | cons key path => rfl

theorem at?_singleton (s : Stopwatches) (key : String) :
    s.at? [key] = s.watches.lookup key := by
  show (s.watches.lookup key).bind some = _
  cases s.watches.lookup key <;> rfl

theorem elapsed_eq (s : Stopwatches) (key : String) :
    s.elapsed key = ((s.at? [key]).map Stopwatch.elapsed).getD 0 := by
  rw [at?_singleton, elapsed]
  cases s.watches.lookup key <;> rfl

/-- The dial at the end of a path. -/
def dial? (s : Stopwatches) (path : List String) : Option (Option Nat × Nat) :=
  (s.at? path).map Stopwatch.dial

theorem elapsed_eq_dial (s : Stopwatches) (key : String) :
    s.elapsed key = ((s.dial? [key]).map Prod.snd).getD 0 := by
  rw [elapsed_eq, dial?, Option.map_map]
  rfl

/-- The keys that run lead to a stopwatch, and the stopwatches on the way
there are those that run. No key is used twice outermost. -/
structure Tidy (s : Stopwatches) : Prop where
  leads : s.running ≠ [] → ∃ w, s.at? s.running = some w
  runs : ∀ path w, s.at? path = some w →
      (w.since.isSome = true ↔ path <+: s.running)
  keys_nodup : s.watches.keys.Nodup

theorem tidy_empty : Tidy {} where
  leads h := absurd rfl h
  runs path w h := by
    cases path with
    | nil => cases h
    | cons key path => cases h
  keys_nodup := List.nodup_nil

namespace Tidy

variable (hs : s.Tidy)

include hs

theorem exists_root : ∃ w, s.root.at? s.running = some w := by
  by_cases h : s.running = []
  · exact ⟨s.root, by rw [h]; rfl⟩
  · obtain ⟨w, hw⟩ := hs.leads h
    exact ⟨w, by rw [← at?_eq s h, hw]⟩

/-- While a stopwatch runs, the current one can be changed, and the change
takes place at the end of the path. -/
theorem adjustCurrent?_eq_some (hrun : s.running ≠ [])
    (f : Stopwatch → Stopwatch) :
    ∃ s', s.adjustCurrent? f = some s'
      ∧ s.root.adjust? f s.running = some s'.root := by
  obtain ⟨w, hw⟩ := hs.exists_root
  obtain ⟨r, hr⟩ := Stopwatch.exists_adjust? hw f
  obtain ⟨k, path, hcons⟩ := List.exists_cons_of_ne_nil hrun
  rw [hcons] at hr
  obtain ⟨v, v', hv, hv', rfl⟩ := Stopwatch.of_adjust?_cons hr
  replace hv : s.watches.lookup k = some v := hv
  unfold adjustCurrent?
  simp only [hcons, hv, hv', Option.bind_eq_bind, Option.bind_some,
    Option.pure_def]
  exact ⟨_, rfl, hr⟩

/-- A start takes place at the end of the path. -/
theorem root_start (key : String) (now : Nat) :
    s.root.adjust? (·.startInner key now) s.running
      = some (s.start key now).root := by
  unfold Stopwatches.start
  by_cases hrun : s.running = []
  · unfold adjustCurrent?
    rw [hrun]
    rfl
  · obtain ⟨s', hs', hroot⟩ :=
      hs.adjustCurrent?_eq_some hrun (·.startInner key now)
    rw [hs', hroot]
    rfl

theorem root_stop (hrun : s.running ≠ []) (now : Nat) :
    s.root.adjust? (·.stop now) s.running = some (s.stop now).root := by
  obtain ⟨s', hs', hroot⟩ := hs.adjustCurrent?_eq_some hrun (·.stop now)
  unfold Stopwatches.stop
  rw [hs', hroot]
  rfl

/-- A start sets the dial of the new current stopwatch, and no other. -/
theorem dial?_start (key : String) (now : Nat) (path : List String) :
    (s.start key now).dial? path
      = if path = s.running ++ [key] then
          some (some now, ((s.at? path).map Stopwatch.elapsed).getD 0)
        else s.dial? path := by
  by_cases hpath : path = []
  · subst hpath
    rw [if_neg (by simp)]
    rfl
  obtain ⟨w, hw⟩ := hs.exists_root
  have hroot := hs.root_start key now
  rw [dial?, dial?, at?_eq _ hpath, at?_eq _ hpath]
  by_cases hprefix : s.running <+: path
  · obtain ⟨q, rfl⟩ := hprefix
    rw [Stopwatch.at?_adjust hroot, Stopwatch.at?_append, hw, Option.bind_some,
      Option.bind_some, Stopwatch.dial_startInner]
    simp only [List.append_right_inj]
    by_cases hq : q = [key]
    · subst hq
      rfl
    · rw [if_neg hq, if_neg hq]
  · rw [Stopwatch.dial_adjust_of_not_prefix hroot hprefix, if_neg]
    rintro rfl
    exact hprefix (List.prefix_append _ _)

/-- A stop changes the dial of the current stopwatch, and no other. -/
theorem dial?_stop (hrun : s.running ≠ []) (now : Nat) (path : List String) :
    (s.stop now).dial? path
      = if path = s.running then (s.at? path).map fun w => (w.stop now).dial
        else s.dial? path := by
  by_cases hpath : path = []
  · subst hpath
    rw [if_neg hrun.symm]
    rfl
  obtain ⟨w, hw⟩ := hs.exists_root
  have hroot := hs.root_stop hrun now
  rw [dial?, dial?, at?_eq _ hpath, at?_eq _ hpath]
  by_cases hprefix : s.running <+: path
  · obtain ⟨q, rfl⟩ := hprefix
    rw [Stopwatch.at?_adjust hroot, Stopwatch.at?_append, hw, Option.bind_some,
      Option.bind_some]
    cases q with
    | nil =>
      rw [if_pos (List.append_nil _)]
      rfl
    | cons k q =>
      rw [if_neg (by simp), Stopwatch.at?, Stopwatch.at?, Stopwatch.inner_stop]
  · rw [Stopwatch.dial_adjust_of_not_prefix hroot hprefix, if_neg]
    rintro rfl
    exact hprefix (List.prefix_refl _)

theorem keys_nodup_adjust {f : Stopwatch → Stopwatch} {path : List String}
    {r : Stopwatch} (hf : ∀ w : Stopwatch, (WatchRack.keys w.inner).Nodup →
      (WatchRack.keys (f w).inner).Nodup)
    (h : s.root.adjust? f path = some r) : (WatchRack.keys r.inner).Nodup := by
  cases path with
  | nil =>
    cases h
    exact hf _ hs.keys_nodup
  | cons key path =>
    obtain ⟨v, v', -, -, rfl⟩ := Stopwatch.of_adjust?_cons h
    exact WatchRack.nodup_update hs.keys_nodup key _

end Tidy

theorem exists_at?_of_dial? {path : List String} {d : Option Nat × Nat}
    (h : s.dial? path = some d) : ∃ w, s.at? path = some w ∧ w.dial = d :=
  Option.map_eq_some_iff.mp h

/-- Every path on the way of another one leads to a stopwatch if that one
does. -/
theorem exists_at?_of_prefix {p q : List String} {w : Stopwatch}
    (h : s.at? q = some w) (hp : p ≠ []) (hpq : p <+: q) :
    ∃ v, s.at? p = some v := by
  obtain ⟨r, rfl⟩ := hpq
  have hq : p ++ r ≠ [] := by simp [hp]
  rw [at?_eq s hq, Stopwatch.at?_append] at h
  obtain ⟨v, hv, -⟩ := Option.bind_eq_some_iff.mp h
  exact ⟨v, by rw [at?_eq s hp, hv]⟩

/-- Whether a stopwatch runs shows on its dial. -/
theorem isSome_since_of_dial {v w : Stopwatch} (h : v.dial = w.dial) :
    v.since.isSome = w.since.isSome := congrArg (·.1.isSome) h

theorem running_start (s : Stopwatches) (key : String) (now : Nat) :
    (s.start key now).running = s.running ++ [key] := rfl

theorem running_stop (s : Stopwatches) (now : Nat) :
    (s.stop now).running = s.running.dropLast := rfl

/-- A stop too many changes nothing. -/
theorem stop_of_running_nil (h : s.running = []) (now : Nat) :
    s.stop now = s := by
  unfold stop adjustCurrent?
  rw [h]
  show ({ s with running := [] } : Stopwatches) = s
  rw [← h]

theorem Tidy.start (hs : s.Tidy) (key : String) (now : Nat) :
    (s.start key now).Tidy where
  leads _ := by
    have hdial := hs.dial?_start key now (s.running ++ [key])
    rw [if_pos rfl] at hdial
    obtain ⟨w, hw, -⟩ := exists_at?_of_dial? hdial
    exact ⟨w, hw⟩
  runs path w hw := by
    have hdial := hs.dial?_start key now path
    rw [running_start, List.prefix_concat_iff]
    by_cases hpath : path = s.running ++ [key]
    · -- the stopwatch that was started
      rw [if_pos hpath] at hdial
      rw [dial?, hw, Option.map_some, Option.some.injEq] at hdial
      have hsince : w.since = some now := congrArg Prod.fst hdial
      rw [hsince]
      exact iff_of_true rfl (.inl hpath)
    · rw [if_neg hpath, dial?, hw, Option.map_some] at hdial
      obtain ⟨v, hv, hvw⟩ := exists_at?_of_dial? hdial.symm
      rw [← isSome_since_of_dial hvw, hs.runs path v hv, or_iff_right hpath]
  keys_nodup := hs.keys_nodup_adjust (fun _ h => WatchRack.nodup_update h key _)
    (hs.root_start key now)

theorem Tidy.stop (hs : s.Tidy) (now : Nat) : (s.stop now).Tidy := by
  by_cases hrun : s.running = []
  · rw [stop_of_running_nil hrun]
    exact hs
  obtain ⟨w₀, hw₀⟩ := hs.leads hrun
  have hlast : s.running.dropLast ++ [s.running.getLast hrun] = s.running :=
    List.dropLast_append_getLast hrun
  have hshort : s.running.dropLast ≠ s.running := by
    intro h
    have hlength := congrArg List.length h
    rw [List.length_dropLast] at hlength
    have := List.length_pos_iff.mpr hrun
    omega
  refine ⟨?_, ?_, ?_⟩
  · intro hrun'
    rw [running_stop] at hrun' ⊢
    obtain ⟨v, hv⟩ := exists_at?_of_prefix hw₀ hrun' (List.dropLast_prefix _)
    have hdial := hs.dial?_stop hrun now s.running.dropLast
    rw [if_neg hshort, dial?, dial?, hv, Option.map_some] at hdial
    obtain ⟨w, hw, -⟩ := exists_at?_of_dial? hdial
    exact ⟨w, hw⟩
  · intro path w hw
    have hdial := hs.dial?_stop hrun now path
    rw [running_stop]
    by_cases hpath : path = s.running
    · -- the stopwatch that was stopped
      rw [if_pos hpath, hpath, hw₀, dial?, ← hpath, hw, Option.map_some,
        Option.map_some, Option.some.injEq] at hdial
      have hsince : w.since = none :=
        (congrArg Prod.fst hdial).trans (w₀.since_stop now)
      rw [hsince, hpath]
      refine iff_of_false Bool.false_ne_true ?_
      intro hprefix
      exact hshort ((List.dropLast_prefix _).eq_of_length_le hprefix.length_le)
    · rw [if_neg hpath, dial?, hw, Option.map_some] at hdial
      obtain ⟨v, hv, hvw⟩ := exists_at?_of_dial? hdial.symm
      rw [← isSome_since_of_dial hvw, hs.runs path v hv]
      conv_lhs =>
        rw [← hlast, List.prefix_concat_iff, hlast, or_iff_right hpath]
  · refine hs.keys_nodup_adjust ?_ (hs.root_stop hrun now)
    intro v hv
    rwa [Stopwatch.inner_stop]

/-- What the outermost stopwatches ran for in all, key by key. -/
theorem Tidy.total_eq (hs : s.Tidy) :
    s.total = ∑ key ∈ s.watches.keys.toFinset, s.elapsed key := by
  have htotal : s.total = (s.watches.map fun w => w.2.elapsed).sum := by
    rw [total, List.sum_eq_foldl, List.foldl_map]
  rw [htotal, List.sum_toFinset _ hs.keys_nodup, WatchRack.keys, List.map_map]
  congr 1
  apply List.map_congr_left
  intro entry hentry
  show entry.2.elapsed = s.elapsed entry.1
  rw [elapsed, WatchRack.lookup_of_mem hs.keys_nodup hentry]

end Stopwatches

end Equilibration
