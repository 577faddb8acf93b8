import Mathlib.Data.List.Basic
import Equilibration.Checked

/-!
# CheckedLoops — loops that cannot stop

The kernels are loops of `Checked` steps. Where every step succeeds the
loop is an ordinary fold, or passes through states that are known in advance
(`foldlM_eq_ok`). The loop that all kernels share rewrites a piece of an array
(`updateFrom_eq_ok`).
-/

namespace Equilibration.Checked

variable {β γ σ : Type}

@[simp] theorem ok_bind (b : β) (f : β → Checked γ) :
    (Except.ok b >>= f) = f b := rfl

@[simp] theorem pure_eq_ok (b : β) : (pure b : Checked β) = .ok b := rfl

theorem bind_eq_ok_iff {x : Checked β} {f : β → Checked γ} {c : γ} :
    (x >>= f) = .ok c ↔ ∃ b, x = .ok b ∧ f b = .ok c := by
  constructor
  · intro h
    cases x with
    | error v => cases h
    | ok b => exact ⟨b, rfl, h⟩
  · rintro ⟨b, rfl, h⟩
    exact h

theorem read_eq_ok_iff {a : Array β} {i : Nat} {b : β} :
    read a i = .ok b ↔ ∃ h : i < a.size, a[i] = b := by
  unfold read
  split <;> simp [*]

theorem require_eq_ok {p : Prop} {_ : Decidable p} (h : p) (v : Violation) :
    require p v = .ok () :=
  if_pos h

theorem of_require {p : Prop} {_ : Decidable p} {v : Violation} {u : Unit}
    (h : require p v = .ok u) : p := by
  unfold require at h
  split at h
  · assumption
  · cases h

/-- What follows a computation may rely on how it ended. -/
theorem bind_congr_ok {x : Checked β} {k l : β → Checked γ}
    (h : ∀ b, x = .ok b → k b = l b) :
    (x >>= k) = (x >>= l) := by
  cases x with
  | error v => rfl
  | ok b => exact h b rfl

/-- What follows a requirement may rely on it. -/
theorem require_bind_congr {p : Prop} {_ : Decidable p} {v : Violation}
    {k l : Unit → Checked γ} (h : p → k () = l ()) :
    (require p v >>= k) = (require p v >>= l) :=
  bind_congr_ok fun _ hp => h (of_require hp)

theorem allocate_eq_ok {count : Nat} (h : count < capacity) (b : β) :
    allocate count b = .ok (Array.replicate count b) := by
  rw [allocate, require_eq_ok h]
  rfl

theorem allocate_eq_ok_iff {count : Nat} {b : β} {a : Array β} :
    allocate count b = .ok a
      ↔ count < capacity ∧ a = Array.replicate count b := by
  constructor
  · intro h
    unfold allocate require at h
    split at h
    · next hlt =>
      cases h
      exact ⟨hlt, rfl⟩
    · cases h
  · rintro ⟨h, rfl⟩
    exact allocate_eq_ok h b

/-! ## Folds -/

theorem foldlM_congr_mem {f g : σ → β → Checked σ} {l : List β} (s : σ)
    (h : ∀ s, ∀ b ∈ l, f s b = g s b) : l.foldlM f s = l.foldlM g s := by
  induction l generalizing s with
  | nil => rfl
  | cons b l ih =>
    rw [List.foldlM_cons, List.foldlM_cons, h s b List.mem_cons_self]
    congr 1
    funext s'
    exact ih s' fun s c hc => h s c (List.mem_cons_of_mem b hc)

/-- A loop in a loop is one loop over all inner elements. -/
theorem foldlM_flatMap (f : σ → γ → Checked σ) (l : List β) (inner : β → List γ)
    (s : σ) :
    (l.flatMap inner).foldlM f s
      = l.foldlM (fun s b => (inner b).foldlM f s) s := by
  induction l generalizing s with
  | nil => rfl
  | cons b l ih =>
    rw [List.flatMap_cons, List.foldlM_append, List.foldlM_cons]
    congr 1
    funext s'
    exact ih s'

/-- A loop whose steps succeed as long as an invariant holds is a fold. -/
theorem foldlM_of_inv {f : σ → β → Checked σ} {g : σ → β → σ} (P : σ → Prop)
    {l : List β} (h : ∀ s, P s → ∀ b ∈ l, f s b = .ok (g s b) ∧ P (g s b))
    {s : σ} (hs : P s) :
    l.foldlM f s = .ok (l.foldl g s) := by
  induction l generalizing s with
  | nil => rfl
  | cons b l ih =>
    obtain ⟨hstep, hinv⟩ := h s hs b List.mem_cons_self
    rw [List.foldlM_cons, hstep, ok_bind, List.foldl_cons]
    exact ih (fun s hs c hc => h s hs c (List.mem_cons_of_mem b hc)) hinv

/-- A loop that meets its states in a known order ends in the last. The
state after some elements may depend on all of them. -/
theorem foldlM_eq_ok {f : σ → β → Checked σ} (state : List β → σ)
    (done todo : List β) (h : ∀ pre b post, pre ++ b :: post = done ++ todo →
      f (state pre) b = .ok (state (pre ++ [b]))) :
    todo.foldlM f (state done) = .ok (state (done ++ todo)) := by
  induction todo generalizing done with
  | nil => rw [List.append_nil]; rfl
  | cons b todo ih =>
    rw [List.foldlM_cons, h done b todo rfl, ok_bind, ih (done ++ [b]),
      List.append_assoc, List.singleton_append]
    intro pre c post heq
    exact h pre c post (by rw [heq, List.append_assoc, List.singleton_append])

/-- A loop that counts the elements of a list has found a cell for each. -/
theorem lt_size_of_counted {l : List Nat} {counts counts' : Array Nat}
    (h : l.foldlM (fun counts j => do
      let c ← read counts j
      let c ← addWords c 1
      write counts j c) counts = .ok counts') : ∀ j ∈ l, j < counts.size := by
  induction l generalizing counts with
  | nil =>
    intro j hj
    cases hj
  | cons i l ih =>
    rw [List.foldlM_cons, bind_eq_ok_iff] at h
    obtain ⟨next, hstep, hrest⟩ := h
    rw [bind_eq_ok_iff] at hstep
    obtain ⟨c, hread, hstep⟩ := hstep
    rw [bind_eq_ok_iff] at hstep
    obtain ⟨c', -, hwrite⟩ := hstep
    intro j hj
    rcases List.mem_cons.mp hj with rfl | hj
    · exact (read_eq_ok_iff.mp hread).1
    · rw [← size_of_write hwrite]
      exact ih hrest j hj

theorem mapM_eq_ok {f : β → Checked γ} {g : β → γ} {l : List β}
    (h : ∀ b ∈ l, f b = .ok (g b)) :
    l.mapM f = .ok (l.map g) := by
  induction l with
  | nil => rfl
  | cons b l ih =>
    have hl := ih fun c hc => h c (List.mem_cons_of_mem b hc)
    rw [List.mapM_cons, h b List.mem_cons_self, ok_bind, hl]
    rfl

/-! ## Pieces -/

/-- An update rewrites one cell for each element of its list, and no other. -/
theorem updateFrom_eq_ok (f : β → γ → β) {a : Array β} {start : Nat}
    {cs : List γ} (h : start + cs.length ≤ a.size) :
    ∃ a', updateFrom f a start cs = .ok a' ∧ a'.size = a.size
      ∧ (∀ j c, cs[j]? = some c → a'[start + j]? = a[start + j]?.map (f · c))
      ∧ ∀ i, i < start ∨ start + cs.length ≤ i → a'[i]? = a[i]? := by
  induction cs generalizing a start with
  | nil =>
    refine ⟨a, rfl, rfl, ?_, fun _ _ => rfl⟩
    intro j c hc
    cases hc
  | cons c cs ih =>
    rw [List.length_cons] at h
    have hlt : start < a.size := by omega
    have hrest : start + 1 + cs.length ≤ (a.set start (f a[start] c)).size := by
      rw [Array.size_set]
      omega
    obtain ⟨a', hrun, hsize, hinside, houtside⟩ := ih hrest
    refine ⟨a', ?_, by rw [hsize, Array.size_set], ?_, ?_⟩
    · rw [updateFrom, read_eq_ok hlt, ok_bind, write_eq_ok hlt, ok_bind, hrun]
    · intro j d hd
      cases j with
      | zero =>
        rw [List.getElem?_cons_zero, Option.some.injEq] at hd
        rw [Nat.add_zero, houtside start (.inl (Nat.lt_succ_self _)),
          Array.getElem?_set_self, hd,
          Array.getElem?_eq_getElem hlt, Option.map_some]
      | succ j =>
        rw [List.getElem?_cons_succ] at hd
        rw [show start + (j + 1) = start + 1 + j by omega, hinside j d hd,
          Array.getElem?_set_ne hlt (by omega)]
    · intro i hi
      rw [List.length_cons] at hi
      rw [houtside i (by omega), Array.getElem?_set_ne hlt (by omega)]

end Equilibration.Checked
