import Mathlib.Algebra.Order.BigOperators.Group.Finset
import Mathlib.Data.Finset.Prod
import Equilibration.Proofs.StopwatchPaths

/-!
# TimeAccounts — what the stopwatches have to show

The time of an outermost stopwatch, told from what was pressed alone. An
interval of a key begins where the key is started while nothing runs, and
ends with the stop that leaves nothing running again
(`Stopwatches.Interval`). The same key started in between is another
stopwatch, and a stop too many ends nothing.

`Stopwatches.times_add_up` is the whole account: after any presses the
stopwatches on the path of the keys that run are there and are those that
run, each outermost key shows the lengths of its intervals, the total is the
sum over these keys, and no later press makes a time smaller.
-/

namespace Equilibration

/-- What is done to the stopwatches. -/
inductive Press where
  | start (key : String)
  | stop
deriving DecidableEq, Repr

namespace Stopwatches

/-- A press comes with the reading of the clock. -/
def press (s : Stopwatches) : Press × Nat → Stopwatches
  | (.start key, now) => s.start key now
  | (.stop, now) => s.stop now

/-- The stopwatches after some presses. -/
def after (presses : List (Press × Nat)) : Stopwatches := presses.foldl press {}

/-! ## Intervals -/

/-- The keys that are started and not stopped yet, the outermost first. -/
def pending (presses : List (Press × Nat)) : List String :=
  presses.foldl (fun keys p => match p.1 with
    | .start key => keys ++ [key]
    | .stop => keys.dropLast) []

/-- What the clock read at a press. -/
def reading (presses : List (Press × Nat)) (i : Nat) : Nat :=
  ((presses[i]?).map Prod.snd).getD 0

/-- The key is started at the press `i` while nothing runs. -/
def Begins (presses : List (Press × Nat)) (key : String) (i : Nat) : Prop :=
  (presses[i]?).map Prod.fst = some (.start key) ∧ pending (presses.take i) = []

/-- An outermost interval of a key: something runs from its start at the
press `i` to the stop at the press `j`, and nothing after that. -/
structure Interval (presses : List (Press × Nat)) (key : String)
    (i j : Nat) : Prop where
  begins : Begins presses key i
  lt : i < j
  lasts : ∀ k ≤ j, i < k → pending (presses.take k) ≠ []
  stops : (presses[j]?).map Prod.fst = some .stop
  ends : pending (presses.take (j + 1)) = []

/-- The key was started while nothing ran, and something has run since. -/
structure Open (presses : List (Press × Nat)) (key : String) (i : Nat) :
    Prop where
  begins : Begins presses key i
  lasts : ∀ k ≤ presses.length, i < k → pending (presses.take k) ≠ []

instance (presses : List (Press × Nat)) (key : String) (i : Nat) :
    Decidable (Begins presses key i) :=
  inferInstanceAs (Decidable (_ ∧ _))

instance (presses : List (Press × Nat)) (key : String) (i j : Nat) :
    Decidable (Interval presses key i j) :=
  decidable_of_iff (Begins presses key i ∧ i < j
      ∧ (∀ k ≤ j, i < k → pending (presses.take k) ≠ [])
      ∧ (presses[j]?).map Prod.fst = some .stop
      ∧ pending (presses.take (j + 1)) = [])
    ⟨fun ⟨h₁, h₂, h₃, h₄, h₅⟩ => ⟨h₁, h₂, h₃, h₄, h₅⟩,
      fun ⟨h₁, h₂, h₃, h₄, h₅⟩ => ⟨h₁, h₂, h₃, h₄, h₅⟩⟩

/-- The outermost intervals of a key, by their first and last presses. -/
def intervals (presses : List (Press × Nat)) (key : String) :
    Finset (Nat × Nat) :=
  (Finset.range presses.length ×ˢ Finset.range presses.length).filter fun p =>
    Interval presses key p.1 p.2

/-- The keys that were ever started while nothing ran. -/
def outermostKeys (presses : List (Press × Nat)) : Finset String :=
  (presses.filterMap fun p => match p.1 with
    | .start key => some key
    | .stop =>
      none).toFinset.filter fun key => ∃ i < presses.length,
        Begins presses key i

section Concat

variable {presses : List (Press × Nat)} {p : Press × Nat} {key : String}
  {i j : Nat}

theorem after_concat (presses : List (Press × Nat)) (p : Press × Nat) :
    after (presses ++ [p]) = (after presses).press p := List.foldl_concat ..

theorem pending_start (presses : List (Press × Nat)) (key : String)
    (now : Nat) :
    pending (presses ++ [(.start key, now)]) = pending presses ++ [key] :=
  List.foldl_concat ..

theorem pending_stop (presses : List (Press × Nat)) (now : Nat) :
    pending (presses ++ [(.stop, now)]) = (pending presses).dropLast :=
  List.foldl_concat ..

theorem take_concat_of_le (h : i ≤ presses.length) :
    (presses ++ [p]).take i = presses.take i :=
  List.take_append_of_le_length h

theorem take_length_succ :
    (presses ++ [p]).take (presses.length + 1) = presses ++ [p] :=
  List.take_of_length_le (by simp)

theorem getElem?_concat_of_lt (h : i < presses.length) :
    (presses ++ [p])[i]? = presses[i]? :=
  List.getElem?_append_left h

theorem reading_concat_of_lt (h : i < presses.length) :
    reading (presses ++ [p]) i = reading presses i := by
  rw [reading, getElem?_concat_of_lt h, reading]

theorem reading_length : reading (presses ++ [p]) presses.length = p.2 := by
  rw [reading, List.getElem?_concat_length]
  rfl

theorem Begins.lt_length (h : Begins presses key i) : i < presses.length := by
  by_contra hi
  have hnone : presses[i]? = none := List.getElem?_eq_none (Nat.le_of_not_lt hi)
  have hstart := h.1
  rw [hnone] at hstart
  cases hstart

theorem Interval.lt_length (h : Interval presses key i j) :
    j < presses.length := by
  by_contra hj
  have hnone : presses[j]? = none := List.getElem?_eq_none (Nat.le_of_not_lt hj)
  have hstop := h.stops
  rw [hnone] at hstop
  cases hstop

theorem mem_intervals :
    (i, j) ∈ intervals presses key ↔ Interval presses key i j := by
  rw [intervals, Finset.mem_filter, Finset.mem_product, Finset.mem_range,
    Finset.mem_range]
  exact ⟨And.right, fun h => ⟨⟨h.begins.lt_length, h.lt_length⟩, h⟩⟩

theorem mem_outermostKeys :
    key ∈ outermostKeys presses ↔ ∃ i, Begins presses key i := by
  rw [outermostKeys, Finset.mem_filter, List.mem_toFinset, List.mem_filterMap]
  constructor
  · rintro ⟨-, i, -, h⟩
    exact ⟨i, h⟩
  · rintro ⟨i, h⟩
    obtain ⟨p, hp, hkey⟩ := Option.map_eq_some_iff.mp h.1
    exact ⟨⟨p, List.mem_of_getElem? hp, by rw [hkey]⟩, i, h.lt_length, h⟩

theorem begins_concat :
    Begins (presses ++ [p]) key i
      ↔ Begins presses key i
        ∨ i = presses.length ∧ p.1 = .start key ∧ pending presses = [] := by
  rcases Nat.lt_trichotomy i presses.length with hi | rfl | hi
  · rw [Begins, getElem?_concat_of_lt hi, take_concat_of_le hi.le, ← Begins,
      or_iff_left fun h => hi.ne h.1]
  · rw [Begins, List.getElem?_concat_length, take_concat_of_le le_rfl,
      List.take_length, or_iff_right fun h => h.lt_length.ne rfl,
      Option.map_some, Option.some.injEq]
    exact (and_iff_right rfl).symm
  · refine iff_of_false ?_ ?_
    · intro h
      have hlength := h.lt_length
      rw [List.length_append, List.length_singleton] at hlength
      omega
    · rintro (h | h)
      · exact absurd h.lt_length (by omega)
      · omega

theorem open_concat :
    Open (presses ++ [p]) key i
      ↔ pending (presses ++ [p]) ≠ []
        ∧ (Open presses key i
          ∨ i = presses.length ∧ p.1 = .start key ∧ pending presses = []) := by
  have hlength : (presses ++ [p]).length = presses.length + 1 := by simp
  constructor
  · rintro ⟨hbegins, hlasts⟩
    have hi := hbegins.lt_length
    refine ⟨?_, ?_⟩
    · have := hlasts (presses.length + 1) hlength.ge (by omega)
      rwa [take_length_succ] at this
    · refine (begins_concat.mp hbegins).imp_left fun h =>
        ⟨h, fun k hk hik => ?_⟩
      rw [← take_concat_of_le hk (p := p)]
      exact hlasts k (by omega) hik
  · rintro ⟨hpending, h⟩
    refine ⟨begins_concat.mpr (h.imp_left Open.begins), fun k hk hik => ?_⟩
    rcases Nat.lt_or_ge presses.length k with hlt | hle
    · obtain rfl : k = presses.length + 1 := by omega
      rwa [take_length_succ]
    · rw [take_concat_of_le hle]
      rcases h with h | ⟨rfl, -⟩
      · exact h.lasts k hle hik
      · omega

theorem interval_concat :
    Interval (presses ++ [p]) key i j
      ↔ Interval presses key i j
        ∨ j = presses.length ∧ Open presses key i
          ∧ pending (presses ++ [p]) = [] := by
  constructor
  · rintro ⟨hbegins, hlt, hlasts, hstops, hends⟩
    have hj : j < (presses ++ [p]).length := by
      by_contra hj
      rw [List.getElem?_eq_none (Nat.le_of_not_lt hj)] at hstops
      cases hstops
    rw [List.length_append, List.length_singleton] at hj
    have hbegins' : Begins presses key i :=
      (begins_concat.mp hbegins).resolve_right fun h => by omega
    have hlasts' : ∀ k ≤ j, i < k → pending (presses.take k) ≠ [] :=
      fun k hk hik => by
      rw [← take_concat_of_le (by omega) (p := p)]
      exact hlasts k hk hik
    rcases Nat.lt_or_ge j presses.length with hj' | hj'
    · rw [getElem?_concat_of_lt hj'] at hstops
      rw [take_concat_of_le hj'] at hends
      exact .inl ⟨hbegins', hlt, hlasts', hstops, hends⟩
    · obtain rfl : j = presses.length := by omega
      rw [take_length_succ] at hends
      exact .inr ⟨rfl, ⟨hbegins', hlasts'⟩, hends⟩
  · rintro (⟨hbegins, hlt, hlasts, hstops, hends⟩ | ⟨rfl,
        ⟨hbegins, hlasts⟩, hends⟩)
    · have hj :=
        (⟨hbegins, hlt, hlasts, hstops, hends⟩ : Interval _ _ _ _).lt_length
      refine ⟨begins_concat.mpr (.inl hbegins), hlt, fun k hk hik => ?_, ?_, ?_⟩
      · rw [take_concat_of_le (by omega)]
        exact hlasts k hk hik
      · rwa [getElem?_concat_of_lt hj]
      · rwa [take_concat_of_le hj]
    · refine ⟨begins_concat.mpr (.inl hbegins), hbegins.lt_length,
        fun k hk hik => ?_, ?_, ?_⟩
      · rw [take_concat_of_le hk]
        exact hlasts k hk hik
      · -- a start would leave its key pending
        obtain ⟨press, now⟩ := p
        cases press with
        | start k =>
          exact absurd (pending_start presses k now ▸ hends) (by simp)
        | stop => rw [List.getElem?_concat_length, Option.map_some]
      · rwa [take_length_succ]

/-- At most one interval is open. -/
theorem Open.unique {key' : String} {i' : Nat} (h : Open presses key i)
    (h' : Open presses key' i') : key = key' ∧ i = i' := by
  obtain rfl : i = i' := by
    rcases Nat.lt_trichotomy i i' with hlt | heq | hlt
    · exact absurd h'.begins.2 (h.lasts i' h'.begins.lt_length.le hlt)
    · exact heq
    · exact absurd h.begins.2 (h'.lasts i h.begins.lt_length.le hlt)
  have hkey := h.begins.1.symm.trans h'.begins.1
  rw [Option.some.injEq, Press.start.injEq] at hkey
  exact ⟨hkey, rfl⟩

end Concat

/-! ## One press -/

section OnePress

variable {s : Stopwatches}

theorem Tidy.press (hs : s.Tidy) (p : Press × Nat) : (s.press p).Tidy := by
  obtain ⟨press, now⟩ := p
  cases press with
  | start key => exact hs.start key now
  | stop => exact hs.stop now

/-- A start adds to no time. -/
theorem Tidy.elapsed_start (hs : s.Tidy) (key : String) (now : Nat)
    (k : String) :
    (s.start key now).elapsed k = s.elapsed k := by
  rw [elapsed_eq_dial, hs.dial?_start]
  split
  · rw [elapsed_eq]
    rfl
  · rw [elapsed_eq_dial]

/-- When the outermost stopwatch of a key was started, if it runs. -/
def since? (s : Stopwatches) (key : String) : Option Nat :=
  (s.dial? [key]).bind Prod.fst

/-- A stop adds to the time of an outermost stopwatch only when that is the
current one. -/
theorem Tidy.elapsed_stop (hs : s.Tidy) (now : Nat) (k : String) :
    (s.stop now).elapsed k
      = if s.running = [k] then s.elapsed k + (now - (s.since? k).getD now)
        else s.elapsed k := by
  by_cases hrun : s.running = []
  · rw [stop_of_running_nil hrun, if_neg (by simp [hrun])]
  rw [elapsed_eq_dial, hs.dial?_stop hrun]
  by_cases hk : s.running = [k]
  · obtain ⟨w, hw⟩ := hs.leads hrun
    rw [hk] at hw
    rw [if_pos hk.symm, if_pos hk, elapsed_eq, since?, dial?, hw]
    show (w.stop now).elapsed = w.elapsed + (now - (w.since.getD now))
    unfold Stopwatch.stop
    cases w.since with
    | none => exact (by rw [Option.getD_none, Nat.sub_self, Nat.add_zero])
    | some since => rfl
  · rw [if_neg (Ne.symm hk), if_neg hk, elapsed_eq_dial]

theorem Tidy.elapsed_le_press (hs : s.Tidy) (p : Press × Nat) (key : String) :
    s.elapsed key ≤ (s.press p).elapsed key := by
  obtain ⟨press, now⟩ := p
  cases press with
  | start k => exact (hs.elapsed_start k now key).ge
  | stop =>
    refine le_trans ?_ (hs.elapsed_stop now key).ge
    split
    · exact Nat.le_add_right _ _
    · exact le_rfl

/-- A start while nothing runs adds its key to the outermost ones, and no
other press adds one. -/
theorem Tidy.mem_keys_press (hs : s.Tidy) (p : Press × Nat) (key : String) :
    key ∈ (s.press p).watches.keys
      ↔ key ∈ s.watches.keys ∨ p.1 = .start key ∧ s.running = [] := by
  have hdial : ∀ s : Stopwatches, key ∈ s.watches.keys
      ↔ (s.dial? [key]).isSome := fun s => by
    rw [WatchRack.mem_keys_iff, ← at?_singleton, dial?, Option.isSome_map]
  rw [hdial, hdial]
  obtain ⟨press, now⟩ := p
  cases press with
  | start k =>
    show ((s.start k now).dial? [key]).isSome ↔ _
    rw [hs.dial?_start, Press.start.injEq]
    by_cases h : s.running = [] ∧ k = key
    · obtain ⟨hrun, rfl⟩ := h
      rw [if_pos (by rw [hrun]; rfl)]
      exact iff_of_true rfl (.inr ⟨rfl, hrun⟩)
    · rw [if_neg, or_iff_left fun h' => h h'.symm]
      intro hsingle
      have hlength := congrArg List.length hsingle
      rw [List.length_singleton, List.length_append, List.length_singleton]
        at hlength
      have hrun : s.running = [] := List.length_eq_zero_iff.mp (by omega)
      rw [hrun] at hsingle
      exact h ⟨hrun, (List.singleton_inj.mp hsingle).symm⟩
  | stop =>
    show ((s.stop now).dial? [key]).isSome ↔ _
    have hstart : ¬ (Press.stop = .start key ∧ s.running = []) := by
      rintro ⟨h, -⟩
      cases h
    rw [or_iff_left hstart]
    by_cases hrun : s.running = []
    · rw [stop_of_running_nil hrun]
    · rw [hs.dial?_stop hrun]
      split
      · rw [dial?, Option.isSome_map, Option.isSome_map]
      · rfl

theorem Tidy.total_le_press (hs : s.Tidy) (p : Press × Nat) :
    s.total ≤ (s.press p).total := by
  rw [hs.total_eq, (hs.press p).total_eq]
  calc ∑ key ∈ s.watches.keys.toFinset, s.elapsed key
      ≤ ∑ key ∈ s.watches.keys.toFinset, (s.press p).elapsed key :=
        Finset.sum_le_sum fun key _ => hs.elapsed_le_press p key
    _ ≤ ∑ key ∈ (s.press p).watches.keys.toFinset, (s.press p).elapsed key := by
        refine Finset.sum_le_sum_of_subset fun key hkey => ?_
        rw [List.mem_toFinset] at hkey ⊢
        exact (hs.mem_keys_press p key).mpr (.inl hkey)

end OnePress

/-! ## All presses -/

section AllPresses

variable (presses : List (Press × Nat))

theorem tidy_after : (after presses).Tidy := by
  induction presses using List.reverseRecOn with
  | nil => exact tidy_empty
  | append_singleton presses p ih =>
    rw [after_concat]
    exact ih.press p

theorem running_after : (after presses).running = pending presses := by
  induction presses using List.reverseRecOn with
  | nil => rfl
  | append_singleton presses p ih =>
    rw [after_concat]
    obtain ⟨press, now⟩ := p
    cases press with
    | start key => rw [pending_start, ← ih]; rfl
    | stop => rw [pending_stop, ← ih]; rfl

theorem mem_keys_after (key : String) :
    key ∈ (after presses).watches.keys ↔ key ∈ outermostKeys presses := by
  rw [mem_outermostKeys]
  induction presses using List.reverseRecOn with
  | nil => exact iff_of_false List.not_mem_nil fun ⟨i, h⟩ => nomatch h.lt_length
  | append_singleton presses p ih =>
    rw [after_concat, (tidy_after presses).mem_keys_press, ih, running_after]
    simp only [begins_concat, exists_or, exists_eq_left]

/-- While something runs, an interval is open: that of the outermost key
that runs, which started when its stopwatch says. -/
theorem exists_open (h : pending presses ≠ []) :
    ∃ key i rest, Open presses key i ∧ pending presses = key :: rest
      ∧ (after presses).since? key = some (reading presses i) := by
  induction presses using List.reverseRecOn with
  | nil => exact absurd rfl h
  | append_singleton presses p ih =>
    have hs := tidy_after presses
    have hrun := running_after presses
    obtain ⟨press, now⟩ := p
    rw [after_concat]
    cases press with
    | start k =>
      rw [pending_start] at h ⊢
      by_cases hpending : pending presses = []
      · refine ⟨k, presses.length, [], ?_, by rw [hpending]; rfl, ?_⟩
        · rw [open_concat, pending_start]
          exact ⟨h, .inr ⟨rfl, rfl, hpending⟩⟩
        · show (((after presses).start k now).dial? [k]).bind Prod.fst = _
          rw [hs.dial?_start, hrun, hpending, List.nil_append, if_pos rfl,
            reading_length]
          rfl
      · obtain ⟨key, i, rest, hopen, hrest, hsince⟩ := ih hpending
        refine ⟨key, i, rest ++ [k], ?_, by rw [hrest]; rfl, ?_⟩
        · rw [open_concat, pending_start]
          exact ⟨h, .inl hopen⟩
        · rw [reading_concat_of_lt hopen.begins.lt_length, ← hsince]
          show (((after presses).start k now).dial? [key]).bind Prod.fst = _
          rw [hs.dial?_start, hrun, hrest, if_neg (by simp), since?]
    | stop =>
      rw [pending_stop] at h ⊢
      have hpending : pending presses ≠ [] := fun hnil => h (by rw [hnil]; rfl)
      obtain ⟨key, i, rest, hopen, hrest, hsince⟩ := ih hpending
      rw [hrest] at h ⊢
      -- something runs inside it, or nothing would be left
      have hinner : rest ≠ [] := by
        rintro rfl
        exact h rfl
      refine ⟨key, i, rest.dropLast, ?_,
        List.dropLast_cons_of_ne_nil hinner, ?_⟩
      · rw [open_concat, pending_stop, hrest]
        exact ⟨h, .inl hopen⟩
      · rw [reading_concat_of_lt hopen.begins.lt_length, ← hsince]
        show (((after presses).stop now).dial? [key]).bind Prod.fst = _
        rw [hs.dial?_stop (by rw [hrun]; exact hpending), hrun, hrest,
          if_neg (by simp [hinner.symm]), since?]

variable {presses}

/-- The stop that leaves nothing running ends the open interval. -/
theorem intervals_of_last_stop {key : String} {i : Nat} {now : Nat}
    (hopen : Open presses key i) (hpending : pending presses = [key])
    (k : String) :
    intervals (presses ++ [(.stop, now)]) k
      = if k = key then insert (i, presses.length) (intervals presses k)
        else intervals presses k := by
  ext ⟨i', j'⟩
  have hends : pending (presses ++ [(.stop, now)]) = [] := by
    rw [pending_stop, hpending]; rfl
  rw [mem_intervals, interval_concat]
  split
  · next hk =>
    subst hk
    rw [Finset.mem_insert, mem_intervals, or_comm, Prod.mk.injEq]
    refine or_congr ⟨?_, ?_⟩ Iff.rfl
    · rintro ⟨rfl, hopen', -⟩
      exact ⟨(hopen'.unique hopen).2, rfl⟩
    · rintro ⟨rfl, rfl⟩
      exact ⟨rfl, hopen, hends⟩
  · next hk =>
    rw [mem_intervals, or_iff_left]
    rintro ⟨-, hopen', -⟩
    exact hk (hopen'.unique hopen).1

/-- Any other press ends none. -/
theorem intervals_of_pending {p : Press × Nat}
    (h : pending (presses ++ [p]) ≠ [] ∨ pending presses = []) (k : String) :
    intervals (presses ++ [p]) k = intervals presses k := by
  ext ⟨i', j'⟩
  rw [mem_intervals, mem_intervals, interval_concat, or_iff_left]
  rintro ⟨-, hopen, hnil⟩
  rcases h with h | h
  · exact h hnil
  · have := hopen.lasts presses.length le_rfl hopen.begins.lt_length
    rw [List.take_length] at this
    exact this h

/-- The sum of the lengths of the intervals of a key. -/
def spent (presses : List (Press × Nat)) (key : String) : Nat :=
  ∑ p ∈ intervals presses key, (reading presses p.2 - reading presses p.1)

theorem sum_intervals_concat (p : Press × Nat) (key : String) :
    ∑ q ∈ intervals presses key,
      (reading (presses ++ [p]) q.2 - reading (presses ++ [p]) q.1)
        = spent presses key := by
  refine Finset.sum_congr rfl fun q hq => ?_
  have hinterval := mem_intervals.mp hq
  rw [reading_concat_of_lt hinterval.lt_length,
    reading_concat_of_lt hinterval.begins.lt_length]

variable (presses)

theorem elapsed_after (key : String) :
    (after presses).elapsed key = spent presses key := by
  induction presses using List.reverseRecOn with
  | nil => rfl
  | append_singleton presses p ih =>
    have hs := tidy_after presses
    have hrun := running_after presses
    obtain ⟨press, now⟩ := p
    rw [after_concat, spent]
    cases press with
    | start k =>
      rw [intervals_of_pending (.inl (by rw [pending_start]; simp)),
        sum_intervals_concat, ← ih]
      exact hs.elapsed_start k now key
    | stop =>
      refine (hs.elapsed_stop now key).trans ?_
      rw [hrun]
      by_cases hpending : pending presses = []
      · rw [intervals_of_pending (.inr hpending), sum_intervals_concat, ← ih,
          hpending, if_neg (by simp)]
      obtain ⟨key', i, rest, hopen, hrest, hsince⟩ :=
        exists_open presses hpending
      cases rest with
      | cons k rest =>
        rw [intervals_of_pending (.inl (by rw [pending_stop, hrest]; simp)),
          sum_intervals_concat, ← ih, hrest, if_neg (by simp)]
      | nil =>
        rw [intervals_of_last_stop hopen hrest]
        by_cases hkey : key = key'
        · subst hkey
          have hnew : (i, presses.length) ∉ intervals presses key := fun hmem =>
            (mem_intervals.mp hmem).lt_length.ne rfl
          rw [if_pos hrest, if_pos rfl, Finset.sum_insert hnew,
            sum_intervals_concat, ← ih, hsince, reading_length,
            reading_concat_of_lt hopen.begins.lt_length, Option.getD_some,
            Nat.add_comm]
        · have hother : pending presses ≠ [key] := fun h =>
            hkey (List.singleton_inj.mp (h.symm.trans hrest))
          rw [if_neg hother, if_neg hkey, sum_intervals_concat, ← ih]

theorem total_after :
    (after presses).total
      = ∑ key ∈ outermostKeys presses, (after presses).elapsed key := by
  rw [(tidy_after presses).total_eq]
  congr 1
  ext key
  rw [List.mem_toFinset, mem_keys_after]

theorem le_after_append (more : List (Press × Nat)) :
    (∀ key, (after presses).elapsed key ≤ (after (presses ++ more)).elapsed key)
      ∧ (after presses).total ≤ (after (presses ++ more)).total := by
  induction more using List.reverseRecOn with
  | nil => rw [List.append_nil]; exact ⟨fun _ => le_rfl, le_rfl⟩
  | append_singleton more p ih =>
    have hs := tidy_after (presses ++ more)
    rw [← List.append_assoc, after_concat]
    exact ⟨fun key => (ih.1 key).trans (hs.elapsed_le_press p key),
      ih.2.trans (hs.total_le_press p)⟩

theorem reading_le (h : (presses.map Prod.snd).Pairwise (· ≤ ·)) {i j : Nat}
    (hij : i < j) (hj : j < presses.length) :
    reading presses i ≤ reading presses j := by
  have hle := List.pairwise_iff_getElem.mp h i j (by simpa using hij.trans hj)
    (by simpa using hj) hij
  rw [List.getElem_map, List.getElem_map] at hle
  rw [reading, reading, List.getElem?_eq_getElem (hij.trans hj),
    List.getElem?_eq_getElem hj]
  exact hle

end AllPresses

/-- The account of the stopwatches after any presses on a clock that does
not go back. -/
theorem times_add_up (presses : List (Press × Nat))
    (hclock : (presses.map Prod.snd).Pairwise (· ≤ ·)) :
    let s := after presses
    -- the keys that run are a path of the tree, and the stopwatches on it are
    -- those that run
    s.running = pending presses
      ∧ (∀ path, path ≠ [] → path <+: s.running → ∃ w, s.at? path = some w)
      ∧ (∀ path w, s.at? path = some w →
        (w.since.isSome = true ↔ path <+: s.running))
      -- a key shows its outermost intervals, all keys together their sum
      ∧ (∀ key, s.elapsed key
          = ∑ p ∈ intervals presses key,
            (reading presses p.2 - reading presses p.1))
      ∧ (∀ key, ∀ p ∈ intervals presses key,
          reading presses p.1 ≤ reading presses p.2)
      ∧ s.total = ∑ key ∈ outermostKeys presses, s.elapsed key
      -- no time gets smaller, and a stop too many changes nothing
      ∧ (∀ more,
          (∀ key, s.elapsed key ≤ (after (presses ++ more)).elapsed key)
          ∧ s.total ≤ (after (presses ++ more)).total)
      ∧ (pending presses = [] → ∀ now,
          after (presses ++ [(.stop, now)]) = s) := by
  have hs := tidy_after presses
  refine ⟨running_after presses, ?_, hs.runs, elapsed_after presses, ?_,
    total_after presses, le_after_append presses, ?_⟩
  · intro path hpath hprefix
    have hrun : (after presses).running ≠ [] := by
      intro hnil
      rw [hnil, List.prefix_nil] at hprefix
      exact hpath hprefix
    obtain ⟨w, hw⟩ := hs.leads hrun
    exact exists_at?_of_prefix hw hpath hprefix
  · rintro key ⟨i, j⟩ hmem
    have hinterval := mem_intervals.mp hmem
    exact reading_le presses hclock hinterval.lt hinterval.lt_length
  · intro hpending now
    rw [after_concat]
    exact stop_of_running_nil ((running_after presses).trans hpending) now

/-- A key that runs inside itself shows its outer interval only, here with a
second one after a stop too many. -/
theorem times_add_up_reentrant :
    let presses :=
      [(Press.start "a", 1), (.start "a", 2), (.stop, 4), (.stop, 5),
        (.stop, 6), (.start "b", 7), (.stop, 10), (.start "a", 10), (.stop, 12)]
    (presses.map Prod.snd).Pairwise (· ≤ ·)
      ∧ (after presses).running = []
      ∧ (after presses).elapsed "a" = 6
      ∧ (after presses).total = 9
      ∧ (after (presses ++ [(.stop, 13)])) = after presses := by
  intro presses
  have hclock : (presses.map Prod.snd).Pairwise (· ≤ ·) := by decide
  obtain ⟨hrun, -, -, helapsed, -, htotal, -, hstop⟩ :=
    times_add_up presses hclock
  have hpending : pending presses = [] := by decide
  refine ⟨hclock, hrun.trans hpending, ?_, ?_, hstop hpending 13⟩
  · rw [helapsed]
    decide
  · rw [htotal]
    decide

end Stopwatches

end Equilibration
