import Equilibration.Proofs.JsonTexts
import Equilibration.Proofs.SavedOptions
import Equilibration.Proofs.SoundOptions

/-!
# PartialOptions — options that are given in part

An object gives options as long as no option is given twice and every value
that is given can be chosen; what is not given is standard
(`Options.ofJson?_object_iff`). That is said of the members without their
order, and of members with unknown names nothing is said, so how the members
are arranged does not matter. An array gives the first options and is read as
the object that gives them by name (`Options.ofJson?_array`).
-/

namespace Equilibration

variable {α : Type}

/-! ## Choices by key -/

namespace Options

theorem key_choice (o : Options α) (key : OptionKey) :
    (o.choice key).key = key := by
  cases key <;> rfl

/-- Options are equal if they make the same choices. -/
theorem ext_choice {o o' : Options α}
    (h : ∀ key, o.choice key = o'.choice key) : o = o' := by
  have hverbose := Choice.verbose.inj (h .verbose)
  have hbalanceNorm := Choice.balanceNorm.inj (h .balanceNorm)
  have hnormalizeNorm := Choice.normalizeNorm.inj (h .normalizeNorm)
  have hbalanceBudget := Choice.balanceBudget.inj (h .balanceBudget)
  have hbalanceTolerance := Choice.balanceTolerance.inj (h .balanceTolerance)
  have hnormBudget := Choice.normBudget.inj (h .normBudget)
  have hnormTolerance := Choice.normTolerance.inj (h .normTolerance)
  cases o
  cases o'
  congr

end Options

namespace Choices

/-- The choice made for a key. -/
def chosen (c : Choices α) : OptionKey → Option (Choice α)
  | .verbose => c.verbose.map .verbose
  | .balanceNorm => c.balanceNorm.map .balanceNorm
  | .normalizeNorm => c.normalizeNorm.map .normalizeNorm
  | .balanceBudget => c.balanceBudget.map .balanceBudget
  | .balanceTolerance => c.balanceTolerance.map .balanceTolerance
  | .normBudget => c.normBudget.map .normBudget
  | .normTolerance => c.normTolerance.map .normTolerance

theorem chosen_set (c : Choices α) (x : Choice α) (key : OptionKey) :
    (c.set x).chosen key = if x.key = key then some x else c.chosen key := by
  cases x <;> cases key <;> rfl

theorem choice_applyTo (c : Choices α) (o : Options α) (key : OptionKey) :
    (c.applyTo o).choice key = (c.chosen key).getD (o.choice key) := by
  cases key <;> exact (Option.getD_map _ _ _).symm

end Choices

/-! ## Members -/

namespace OptionKey

theorem eq_name_of_ofName? {name : String} {key : OptionKey}
    (h : ofName? name = some key) :
    name = key.name := by
  have hfound := List.find?_some h
  exact (eq_of_beq hfound).symm

theorem name_inj {key key' : OptionKey} (h : key.name = key'.name) :
    key = key' := by
  have hread := ofName?_name key
  rw [h, ofName?_name] at hread
  exact (Option.some.inj hread).symm

end OptionKey

/-- Whether a member has a name that is not the name of an option. -/
def Json.isUnknown (member : Option String × Json) : Bool :=
  member.1.any fun name => (OptionKey.ofName? name).isNone

theorem Json.isUnknown_of_name {member : Option String × Json} {key : OptionKey}
    (h : member.1 = some key.name) : Json.isUnknown member = false := by
  simp [Json.isUnknown, h]

/-- A member has no name, an unknown one or that of an option. -/
theorem Json.member_cases (member : Option String × Json) : member.1 = none
    ∨ (∃ name, member.1 = some name ∧ OptionKey.ofName? name = none)
    ∨ ∃ key : OptionKey, member.1 = some key.name := by
  obtain ⟨_ | name, j⟩ := member
  · exact .inl rfl
  · cases h : OptionKey.ofName? name with
    | none => exact .inr (.inl ⟨name, rfl, h⟩)
    | some key =>
      exact .inr (.inr ⟨key, congrArg some (OptionKey.eq_name_of_ofName? h)⟩)

/-- How often an object gives an option. -/
def Json.times (key : OptionKey) (members : List (Option String × Json)) : ℕ :=
  (members.map Prod.fst).count (some key.name)

theorem Json.times_cons (key : OptionKey) (member : Option String × Json)
    (members : List (Option String × Json)) : Json.times key (member :: members)
      = Json.times key members + if member.1 = some key.name then 1 else 0 := by
  simp [Json.times, List.count_cons]

theorem Json.times_eq_zero_iff {key : OptionKey}
    {members : List (Option String × Json)} :
    Json.times key members = 0 ↔ some key.name ∉ members.map Prod.fst :=
  List.count_eq_zero

theorem Json.times_append (key : OptionKey)
    (before after : List (Option String × Json)) :
    Json.times key (before ++ after)
      = Json.times key before + Json.times key after := by
  simp [Json.times, List.count_append]

/-- Members that do not count give no option. -/
theorem Json.times_known (key : OptionKey)
    (members : List (Option String × Json)) :
    Json.times key (members.filter (!Json.isUnknown ·))
      = Json.times key members := by
  induction members with
  | nil => rfl
  | cons member members ih =>
    rw [List.filter_cons]
    split
    · rw [Json.times_cons, Json.times_cons, ih]
    · next hunknown =>
      have hne : member.1 ≠ some key.name := by
        intro hname
        simp [Json.isUnknown_of_name hname] at hunknown
      rw [Json.times_cons, if_neg hne, ih, Nat.add_zero]

namespace Choices

variable [Interchange α] {c c' : Choices α}
  {members : List (Option String × Json)}

theorem addMember?_unknown {name : String} (h : OptionKey.ofName? name = none)
    (c : Choices α) (j : Json) : c.addMember? (some name, j) = some c := by
  simp [addMember?, h]

theorem addMember?_chosen {key : OptionKey} (h : c.isChosen key = true)
    (j : Json) :
    c.addMember? (some key.name, j) = none := by
  simp [addMember?, h]

/-- The members can be added to the choices. -/
structure Accepts (c : Choices α) (members : List (Option String × Json)) :
    Prop where
  named : ∀ member ∈ members, member.1 ≠ none
  once : ∀ key, Json.times key members + (c.isChosen key).toNat ≤ 1
  readable : ∀ key j, (some key.name, j) ∈ members → ∃ x : Choice α,
      j.choice? key = some x

theorem accepts_nil (c : Choices α) : Accepts c [] where
  named := nofun
  once key := by
    rw [Json.times, List.map_nil, List.count_nil, Nat.zero_add]
    exact Bool.toNat_le _
  readable := nofun

/-- A member with an unknown name makes no difference. -/
theorem accepts_cons_unknown {name : String} (h : OptionKey.ofName? name = none)
    {j : Json} :
    Accepts c ((some name, j) :: members) ↔ Accepts c members := by
  have hne : ∀ key : OptionKey, some name ≠ some key.name := by
    intro key heq
    rw [Option.some.inj heq, OptionKey.ofName?_name] at h
    cases h
  have htimes : ∀ key, Json.times key ((some name, j) :: members)
      = Json.times key members := by
    intro key
    rw [Json.times_cons, if_neg (hne key), Nat.add_zero]
  constructor
  · rintro ⟨hnamed, honce, hreadable⟩
    exact ⟨fun member hmember => hnamed member (List.mem_cons_of_mem _ hmember),
      fun key => htimes key ▸ honce key,
      fun key j hj => hreadable key j (List.mem_cons_of_mem _ hj)⟩
  · rintro ⟨hnamed, honce, hreadable⟩
    refine ⟨List.forall_mem_cons.mpr ⟨nofun, hnamed⟩,
      fun key => htimes key ▸ honce key, fun key j' hj' => ?_⟩
    rcases List.mem_cons.mp hj' with heq | hj'
    · exact absurd (congrArg Prod.fst heq).symm (hne key)
    · exact hreadable key j' hj'

/-- A member that gives an option must be the first to do so. -/
theorem accepts_cons_name {key : OptionKey} {j : Json} :
    Accepts c ((some key.name, j) :: members) ↔ c.isChosen key = false
      ∧ ∃ x : Choice α, j.choice? key = some x ∧ Accepts (c.set x) members := by
  have htimes : ∀ key', Json.times key' ((some key.name, j) :: members)
      = Json.times key' members + if key = key' then 1 else 0 := by
    intro key'
    have hiff : some key.name = some key'.name ↔ key = key' :=
      ⟨fun h => OptionKey.name_inj (Option.some.inj h), fun h => h ▸ rfl⟩
    simp only [Json.times_cons, hiff]
  constructor
  · rintro ⟨hnamed, honce, hreadable⟩
    obtain ⟨x, hx⟩ := hreadable key j List.mem_cons_self
    have hkey := honce key
    rw [htimes, if_pos rfl] at hkey
    have hnew : c.isChosen key = false := Bool.toNat_eq_zero.mp (by omega)
    refine ⟨hnew, x, hx, fun member hmember => hnamed member
      (List.mem_cons_of_mem _ hmember), fun key' => ?_,
      fun key j hj => hreadable key j (List.mem_cons_of_mem _ hj)⟩
    have honce' := honce key'
    rw [htimes] at honce'
    rw [isChosen_set, Json.key_of_choice? hx]
    by_cases heq : key = key'
    · subst heq
      simp only [decide_true, Bool.true_or, Bool.toNat_true]
      omega
    · simpa [heq] using honce'
  · rintro ⟨hnew, x, hx, hnamed, honce, hreadable⟩
    refine ⟨List.forall_mem_cons.mpr ⟨nofun, hnamed⟩, fun key' => ?_,
      fun key' j' hj' => ?_⟩
    · have honce' := honce key'
      rw [isChosen_set, Json.key_of_choice? hx] at honce'
      rw [htimes]
      by_cases heq : key = key'
      · subst heq
        simpa [hnew] using honce'
      · simpa [heq] using honce'
    · rcases List.mem_cons.mp hj' with heq | hj'
      · obtain ⟨hname, rfl⟩ := Prod.mk.inj heq
        rw [OptionKey.name_inj (Option.some.inj hname)]
        exact ⟨x, hx⟩
      · exact hreadable key' j' hj'

/-- **Members are added** if and only if they can be. -/
theorem exists_foldlM_iff :
    (∃ c', members.foldlM addMember? c = some c') ↔ Accepts c members := by
  induction members generalizing c with
  | nil => exact ⟨fun _ => accepts_nil c, fun _ => ⟨c, rfl⟩⟩
  | cons member members ih =>
    rw [List.foldlM_cons]
    obtain ⟨name, j⟩ := member
    have hstops : c.addMember? (name, j) = none →
        ¬ ∃ c', (c.addMember? (name, j) >>= fun c =>
          members.foldlM addMember? c) = some c' := by
      rintro hnone ⟨c', h⟩
      rw [hnone] at h
      cases h
    obtain rfl | ⟨name, rfl, hunknown⟩ | ⟨key, rfl⟩ :=
      Json.member_cases (name, j)
    · exact iff_of_false (hstops rfl) fun h => h.named _ List.mem_cons_self rfl
    · rw [addMember?_unknown hunknown, accepts_cons_unknown hunknown, ← ih]
      rfl
    · cases hchosen : c.isChosen key with
      | true =>
        refine iff_of_false (hstops (addMember?_chosen hchosen j)) fun h => ?_
        have hnew := (accepts_cons_name.mp h).1
        rw [hchosen] at hnew
        cases hnew
      | false =>
        cases hx : (j.choice? key : Option (Choice α)) with
        | none =>
          refine iff_of_false
            (hstops (by rw [addMember?_name hchosen, hx]; rfl)) fun h => ?_
          obtain ⟨x, hx', -⟩ := (accepts_cons_name.mp h).2
          rw [hx] at hx'
          cases hx'
        | some x =>
          rw [addMember?_name hchosen, accepts_cons_name, hx]
          simpa [hchosen] using ih (c := c.set x)

/-- After the members are added, what they give is chosen and the rest as it
was. -/
theorem chosen_of_foldlM (h : members.foldlM addMember? c = some c') :
    (∀ key j, (some key.name, j) ∈ members → j.choice? key = c'.chosen key)
      ∧ ∀ key, Json.times key members = 0 → c'.chosen key = c.chosen key := by
  induction members generalizing c with
  | nil =>
    cases h
    exact ⟨nofun, fun _ _ => rfl⟩
  | cons member members ih =>
    rw [List.foldlM_cons] at h
    obtain ⟨c₁, hadd, hrest⟩ := Option.bind_eq_some_iff.mp h
    obtain ⟨hgiven, hkept⟩ := ih hrest
    obtain ⟨name, j⟩ := member
    obtain rfl | ⟨name, rfl, hunknown⟩ | ⟨key, rfl⟩ :=
      Json.member_cases (name, j)
    · cases hadd
    · rw [addMember?_unknown hunknown] at hadd
      cases hadd
      refine ⟨fun key j' hj' => ?_, fun key htimes => ?_⟩
      · rcases List.mem_cons.mp hj' with heq | hj'
        · rw [← Option.some.inj (congrArg Prod.fst heq), OptionKey.ofName?_name]
            at hunknown
          cases hunknown
        · exact hgiven key j' hj'
      · rw [Json.times_cons] at htimes
        exact hkept key (Nat.eq_zero_of_add_eq_zero htimes).1
    · obtain ⟨hnew, x, hx, haccepts⟩ :=
        accepts_cons_name.mp (exists_foldlM_iff.mp ⟨c', h⟩)
      rw [addMember?_name hnew, hx] at hadd
      cases hadd
      have hkey : x.key = key := Json.key_of_choice? hx
      refine ⟨fun key' j' hj' => ?_, fun key' htimes => ?_⟩
      · rcases List.mem_cons.mp hj' with heq | hj'
        · obtain ⟨hname, rfl⟩ := Prod.mk.inj heq
          obtain rfl := OptionKey.name_inj (Option.some.inj hname)
          -- the option is not given again, so it stays as it is chosen here
          have honce := haccepts.once key'
          rw [isChosen_set, decide_eq_true hkey, Bool.true_or, Bool.toNat_true]
            at honce
          rw [hx, hkept key' (by omega), chosen_set, if_pos hkey]
        · exact hgiven key' j' hj'
      · rw [Json.times_cons] at htimes
        have hne : x.key ≠ key' := by
          rintro rfl
          rw [hkey, if_pos rfl] at htimes
          omega
        rw [hkept key' (Nat.eq_zero_of_add_eq_zero htimes).1, chosen_set,
          if_neg hne]

end Choices

/-! ## Objects -/

namespace Options

variable [Interchange α] {members members' : List (Option String × Json)}
  {o o' : Options α}

/-- The members of an object describe the options: every member has a name,
no option is given twice, and the options are the standard ones but for what
is given. -/
structure Describes (members : List (Option String × Json)) (o : Options α) :
    Prop where
  named : ∀ member ∈ members, member.1 ≠ none
  once : ∀ key, Json.times key members ≤ 1
  given : ∀ key j, (some key.name, j) ∈ members →
      j.choice? key = some (o.choice key)
  missing : ∀ key, Json.times key members = 0 →
      o.choice key = Options.standard.choice key

theorem exists_of_times {key : OptionKey} (h : Json.times key members ≠ 0) :
    ∃ j, (some key.name, j) ∈ members := by
  rw [Ne, Json.times_eq_zero_iff, not_not] at h
  obtain ⟨⟨name, j⟩, hmember, rfl⟩ := List.mem_map.mp h
  exact ⟨j, hmember⟩

/-- Members describe at most one set of options. -/
theorem Describes.unique (h : Describes members o) (h' : Describes members o') :
    o = o' := by
  refine ext_choice fun key => ?_
  by_cases htimes : Json.times key members = 0
  · rw [h.missing key htimes, h'.missing key htimes]
  · obtain ⟨j, hj⟩ := exists_of_times htimes
    have hchoice := h.given key j hj
    rw [h'.given key j hj] at hchoice
    exact (Option.some.inj hchoice).symm

theorem describes_of_ofJson? (h : ofJson? (.object members) = some o) :
    Describes members o := by
  obtain ⟨c, hc, rfl⟩ := Option.map_eq_some_iff.mp h
  have haccepts := Choices.exists_foldlM_iff.mp ⟨c, hc⟩
  obtain ⟨hgiven, hkept⟩ := Choices.chosen_of_foldlM hc
  refine ⟨haccepts.named, fun key => (Nat.le_add_right _ _).trans
    (haccepts.once key), fun key j hj => ?_, fun key htimes => ?_⟩
  · obtain ⟨x, hx⟩ := haccepts.readable key j hj
    have hchosen := hgiven key j hj
    rw [hx] at hchosen ⊢
    rw [Choices.choice_applyTo, ← hchosen]
    rfl
  · have hopen : ({} : Choices α).chosen key = none := by cases key <;> rfl
    rw [Choices.choice_applyTo, hkept key htimes, hopen]
    rfl

/-- **An object is read as the options that its members describe.** -/
theorem ofJson?_object_iff :
    ofJson? (.object members) = some o ↔ Describes members o := by
  constructor
  · exact describes_of_ofJson?
  · intro h
    have hnone : ∀ key, ({} : Choices α).isChosen key = false := by
      intro key
      cases key <;> rfl
    obtain ⟨c, hc⟩ := Choices.exists_foldlM_iff (α := α) (c := {}) |>.mpr
      ⟨h.named, fun key => by simpa [hnone] using h.once key,
        fun key j hj => ⟨_, h.given key j hj⟩⟩
    have hread :
        ofJson? (.object members) = some (c.applyTo (.standard : Options α)) :=
      congrArg (Option.map _) hc
    rw [hread, (describes_of_ofJson? hread).unique h]

/-! ### Arranged members -/

/-- What members describe depends on those that count and not on their
order. -/
theorem Describes.arrange (h : Describes members o)
    (hperm : (members'.filter (!Json.isUnknown ·)).Perm
      (members.filter (!Json.isUnknown ·))) :
    Describes members' o := by
  have hmem : ∀ member, Json.isUnknown member = false →
      (member ∈ members' ↔ member ∈ members) := by
    intro member hknown
    have hiff := hperm.mem_iff (a := member)
    simpa [List.mem_filter, hknown] using hiff
  have htimes : ∀ key, Json.times key members' = Json.times key members := by
    intro key
    rw [← Json.times_known key members, ← Json.times_known key members']
    exact (hperm.map _).count_eq _
  refine ⟨fun member hmember hnone => ?_, fun key => htimes key ▸ h.once key,
    fun key j hj => h.given key j ((hmem _ (Json.isUnknown_of_name rfl)).mp hj),
    fun key hzero => h.missing key (htimes key ▸ hzero)⟩
  have hknown : Json.isUnknown member = false := by simp [Json.isUnknown, hnone]
  exact h.named member ((hmem member hknown).mp hmember) hnone

theorem ofJson?_arrange (hperm : (members'.filter (!Json.isUnknown ·)).Perm
      (members.filter (!Json.isUnknown ·))) :
    (ofJson? (.object members') : Option (Options α))
      = ofJson? (.object members) := by
  refine Option.ext fun o => ?_
  rw [ofJson?_object_iff, ofJson?_object_iff]
  exact ⟨fun h => h.arrange hperm.symm, fun h => h.arrange hperm⟩

/-- Without a member that gives an option, that option is standard. -/
theorem Describes.remove {before after : List (Option String × Json)}
    {key : OptionKey} {j : Json}
    (h : Describes (before ++ (some key.name, j) :: after) o) :
    Describes (before ++ after) (o.set (Options.standard.choice key)) := by
  have hmem : ∀ member ∈ before ++ after,
      member ∈ before ++ (some key.name, j) :: after := by
    intro member hmember
    rcases List.mem_append.mp hmember with hmember | hmember
    · exact List.mem_append_left _ hmember
    · exact List.mem_append_right _ (List.mem_cons_of_mem _ hmember)
  have htimes : ∀ key', Json.times key' (before ++ (some key.name, j) :: after)
      = Json.times key' (before ++ after) + if some key.name
      = some key'.name then 1 else 0 := by
    intro key'
    rw [Json.times_append, Json.times_append, Json.times_cons, Nat.add_assoc]
  have hremoved : Json.times key (before ++ after) = 0 := by
    have honce := h.once key
    rw [htimes, if_pos rfl] at honce
    omega
  have hne : ∀ key', Json.times key' (before ++ after) ≠ 0 → key ≠ key' := by
    rintro _ hgiven rfl
    exact hgiven hremoved
  refine ⟨fun member hmember => h.named member (hmem member hmember),
    fun key' => ?_, fun key' j' hj' => ?_, fun key' hmissing => ?_⟩
  · have honce := h.once key'
    rw [htimes] at honce
    omega
  · have hgiven : Json.times key' (before ++ after) ≠ 0 := by
      rw [Ne, Json.times_eq_zero_iff, not_not]
      exact List.mem_map.mpr ⟨_, hj', rfl⟩
    rw [choice_set, key_choice, if_neg (hne key' hgiven)]
    exact h.given key' j' (hmem _ hj')
  · rw [choice_set, key_choice]
    by_cases heq : key = key'
    · rw [if_pos heq, heq]
    · rw [if_neg heq]
      refine h.missing key' ?_
      rw [htimes, hmissing, if_neg fun hname =>
        heq (OptionKey.name_inj (Option.some.inj hname))]

end Options

/-! ## Arrays -/

namespace Choices

variable [Interchange α]

/-- Items are added as the members that give the same options are, if these
are all different. -/
theorem foldlM_addItem? {items : List (OptionKey × Json)}
    (hkeys : (items.map Prod.fst).Nodup) {c : Choices α}
    (hc : ∀ item ∈ items, c.isChosen item.1 = false) :
    (items.map fun item => (some item.1.name, item.2)).foldlM addMember? c
      = items.foldlM addItem? c := by
  induction items generalizing c with
  | nil => rfl
  | cons item items ih =>
    obtain ⟨key, j⟩ := item
    obtain ⟨hfirst, hkeys⟩ := List.nodup_cons.mp hkeys
    rw [List.map_cons, List.foldlM_cons, List.foldlM_cons, addItem?,
      addMember?_name (hc _ List.mem_cons_self)]
    cases hx : (j.choice? key : Option (Choice α)) with
    | none => rfl
    | some x =>
      refine ih hkeys fun item hitem => ?_
      have hne : x.key ≠ item.1 := by
        rw [Json.key_of_choice? hx]
        rintro rfl
        exact hfirst (List.mem_map.mpr ⟨item, hitem, rfl⟩)
      rw [isChosen_set, decide_eq_false hne,
        hc item (List.mem_cons_of_mem _ hitem)]
      rfl

theorem exists_foldlM_addItem? {items : List (OptionKey × Json)}
    (h : ∀ item ∈ items, ∃ x : Choice α, item.2.choice? item.1 = some x)
    (c : Choices α) :
    ∃ c', items.foldlM addItem? c = some c' := by
  induction items generalizing c with
  | nil => exact ⟨c, rfl⟩
  | cons item items ih =>
    obtain ⟨hitem, hitems⟩ := List.forall_mem_cons.mp h
    obtain ⟨x, hx⟩ := hitem
    rw [List.foldlM_cons, addItem?, hx]
    exact ih hitems (c.set x)

end Choices

namespace Options

/-- The members that give the first options the values of the items. -/
def firstMembers (items : List Json) : List (Option String × Json) :=
  (OptionKey.all.zip items).map fun item => (some item.1.name, item.2)

theorem zip_keys_sublist (keys : List OptionKey) (items : List Json) :
    ((keys.zip items).map Prod.fst).Sublist keys := by
  induction keys generalizing items with
  | nil => exact .slnil
  | cons key keys ih =>
    cases items with
    | nil => exact List.nil_sublist _
    | cons item items => exact (ih items).cons_cons key

variable [Interchange α] {items : List Json}

/-- **An array is read as the object** that gives its items by name. -/
theorem ofJson?_array (hlength : items.length ≤ OptionKey.all.length) :
    (ofJson? (.array items) : Option (Options α))
      = ofJson? (.object (firstMembers items)) := by
  have hall : OptionKey.all.Nodup := by decide
  have hkeys : ((OptionKey.all.zip items).map Prod.fst).Nodup :=
    hall.sublist (zip_keys_sublist _ _)
  have hnone : ∀ item ∈ OptionKey.all.zip items,
      ({} : Choices α).isChosen item.1 = false := by
    rintro ⟨key, j⟩ -
    cases key <;> rfl
  show (if OptionKey.all.length < items.length then
    none else _ : Option (Choices α)).map _ = _
  rw [if_neg (not_lt.mpr hlength), ← Choices.foldlM_addItem? hkeys hnone]
  rfl

theorem exists_ofJson?_array (hlength : items.length ≤ OptionKey.all.length)
    (h : ∀ item ∈ OptionKey.all.zip items, ∃ x : Choice α,
      item.2.choice? item.1 = some x) :
    ∃ o : Options α, ofJson? (.array items) = some o := by
  obtain ⟨c, hc⟩ := Choices.exists_foldlM_addItem? h {}
  refine ⟨c.applyTo .standard, ?_⟩
  show (if OptionKey.all.length < items.length then
    none else _ : Option (Choices α)).map _ = _
  rw [if_neg (not_lt.mpr hlength), hc]
  rfl

/-! ## Texts -/

/-- **Partial texts compose with the standard options.** The texts of objects
are those of their members, in any arrangement, between braces; the texts of
arrays are those of their items between brackets. Blanks may be added between
any two tokens and at the ends, again and again, and never change what is read.

A text of an object is read as the options that its members describe. Any
other text of an object whose members are the same but for their order and for
members with unknown names, whatever and however often these are, is read as
the same. If a member that gives an option is left out of a text that is
accepted, the text is accepted and this option is the standard one. A text that
gives an option more than once is rejected.

A text of an array with up to seven items is read as any text of the object
that gives them to the first options, and is accepted if each item is a value
of its option. -/
theorem partial_texts_compose :
    (∀ (s : String) (members : List (Option String × Json)),
      Json.ofText? s = some (.object members)
        ↔ Json.Encloses '{' '}' (members.map Json.memberPart) s.toList)
    ∧ (∀ (s : String) (items : List Json), Json.ofText? s = some (.array items)
        ↔ Json.Encloses '[' ']' (items.map Json.tokens) s.toList)
    ∧ (∀ s s' : String, Relation.ReflTransGen Json.Token.AddsBlanks s s' →
      (ofText? s' : Option (Options α)) = ofText? s)
    ∧ (∀ (s : String) (ts us : List Json.Token),
      Json.Token.ofText? s = some (ts ++ us) →
      ∀ blanks, Json.Token.Blanks blanks →
      ∃ a b, Json.Token.scanAll a = some ts ∧ Json.Token.scanAll b = some us
        ∧ Json.Token.AddsBlanks s (String.ofList (a ++ (blanks ++ b))))
    ∧ (∀ (s : String) (members : List (Option String × Json)),
      Json.ofText? s = some (.object members) →
      (∀ o : Options α, ofText? s = some o ↔ Describes members o)
      ∧ (∀ (s' : String) (members' : List (Option String × Json)),
        Json.ofText? s' = some (.object members') →
        (members'.filter (!Json.isUnknown ·)).Perm
          (members.filter (!Json.isUnknown ·)) →
        (ofText? s' : Option (Options α)) = ofText? s)
      ∧ (∀ (s' : String) (before after : List (Option String × Json))
        (key : OptionKey) (j : Json) (o : Options α),
        members = before ++ (some key.name, j) :: after →
        Json.ofText? s' = some (.object (before ++ after)) →
        ofText? s = some o →
        ofText? s' = some (o.set (standard.choice key)))
      ∧ ∀ key, 1 < Json.times key members →
        (ofText? s : Option (Options α)) = none)
    ∧ ∀ (s s' : String) (items : List Json), items.length ≤ 7 →
      Json.ofText? s = some (.array items) →
      Json.ofText? s' = some (.object (firstMembers items)) →
      (ofText? s : Option (Options α)) = ofText? s'
      ∧ ((∀ item ∈ OptionKey.all.zip items,
        ∃ x : Choice α, item.2.choice? item.1 = some x) →
        ∃ o : Options α, ofText? s = some o) := by
  have hread : ∀ {s : String} {j : Json}, Json.ofText? s = some j →
      (ofText? s : Option (Options α)) = ofJson? j := by
    intro s j hs
    rw [ofText?, hs, Option.bind_some]
  refine ⟨fun _ _ => Json.ofText?_object_iff, fun _ _ => Json.ofText?_array_iff,
    ?blanks, fun _ _ _ h _ hblanks => Json.Token.exists_addsBlanks h hblanks,
    ?object, ?array⟩
  case blanks =>
    intro s s' h
    rw [ofText?, Json.ofText?_of_addsBlanks h, ofText?]
  case object =>
    intro s members hs
    rw [hread hs]
    refine ⟨fun o => ofJson?_object_iff, ?_, ?_, ?_⟩
    · intro s' members' hs' hperm
      rw [hread hs', ofJson?_arrange hperm]
    · rintro s' before after key j o rfl hs' ho
      rw [hread hs', ofJson?_object_iff]
      exact (ofJson?_object_iff.mp ho).remove
    · intro key htwice
      cases ho : (ofJson? (.object members) : Option (Options α)) with
      | none => rfl
      | some o =>
        exact absurd ((ofJson?_object_iff.mp ho).once key) (not_le.mpr htwice)
  case array =>
    intro s s' items hlength hs hs'
    rw [hread hs, hread hs']
    exact ⟨ofJson?_array hlength, exists_ofJson?_array hlength⟩

/-- Two options, rearranged among unknown members, one left out, given twice,
given by an array and written with a blank. -/
theorem partial_texts_compose_two_options :
    let two := "\x7b\"verbose\":true,\"sinkhorn_max_iter\":7\x7d"
    let rearranged :=
      "\x7b\"x\":[null],\"sinkhorn_max_iter\":7,\"x\":\"\",\"verbose\":true\x7d"
    let one := "\x7b\"verbose\":true\x7d"
    let twice := "\x7b\"verbose\":true,\"verbose\":true\x7d"
    let padded := "\x7b\"verbose\": true\x7d"
    ∃ o : Options Float,
        ofText? two = some o ∧ o.verbose = true ∧ o.balanceBudget = 7
          ∧ ofText? rearranged = some o
          ∧ ofText? one = some { o with balanceBudget := 50 }
          ∧ (ofText? twice : Option (Options Float)) = none
          ∧ (ofText? "[true]" : Option (Options Float)) = ofText? one
          ∧ (ofText? padded : Option (Options Float)) = ofText? one := by
  intro two rearranged one twice padded
  have hread : ∀ {s : String} {j : Json}, Json.Token.ofText? s = some j.tokens →
      Json.ofText? s = some j := Json.ofText?_eq_some_iff.mpr
  let seven : Json := .number ⟨false, [7], none, none⟩
  have htwo : Json.ofText? two
      = some (.object [(some "verbose", .bool true),
        (some "sinkhorn_max_iter", seven)]) :=
    hread (by decide +kernel)
  have hrearranged :
      Json.ofText? rearranged = some (.object [(some "x", .array [.null]),
        (some "sinkhorn_max_iter", seven), (some "x", .string (some "")),
        (some "verbose", .bool true)]) := hread (by decide +kernel)
  have hone :
      Json.ofText? one = some (.object [(some "verbose", .bool true)]) :=
    hread (by decide +kernel)
  have htwice : Json.ofText? twice
      = some (.object [(some "verbose", .bool true),
        (some "verbose", .bool true)]) :=
    hread (by decide +kernel)
  have harray : Json.ofText? "[true]" = some (.array [.bool true]) :=
    hread (by decide +kernel)
  have hpadded : Json.Token.AddsBlanks one padded :=
    ⟨"\x7b\"verbose\":".toList, [' '], "true\x7d".toList,
      [.openBrace, .string (some "verbose"), .colon], [.bool true, .closeBrace],
      List.forall_mem_singleton.mpr rfl, by decide, by decide,
      by decide +kernel, by decide +kernel, by decide +kernel⟩
  obtain ⟨-, -, hblanks, -, hobject, hitems⟩ :=
    partial_texts_compose (α := Float)
  obtain ⟨hdescribed, harranged, hremoved, -⟩ := hobject two _ htwo
  obtain ⟨-, -, -, hrepeated⟩ := hobject twice _ htwice
  have hoptions : ofText? two
      = some { (standard : Options Float) with
        verbose := true, balanceBudget := 7 } := by
    rw [ofText?, htwo]
    decide +kernel
  refine ⟨_, hoptions, rfl, rfl, ?_, ?_, hrepeated .verbose (by decide), ?_, ?_⟩
  · rw [harranged rearranged _ hrearranged (.swap _ _ _), hoptions]
  · exact hremoved one [(some "verbose", .bool true)]
      [] .balanceBudget seven _ rfl hone hoptions
  · exact (hitems "[true]" one [.bool true] (by decide) harray hone).1
  · exact hblanks one padded (.single hpadded)

end Options

end Equilibration
