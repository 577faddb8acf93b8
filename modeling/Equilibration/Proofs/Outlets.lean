import Equilibration.Outlet

/-!
# Outlets — what texts leave in an outlet

A text leaves the same in an outlet whether it is written as a whole or in
parts (`Outlet.offer_append`), and a list of lines leaves what the lines
joined would, although a stream without room stops the writing early
(`Outlet.writeLines_fst`). So an outlet that was opened and then written to
holds a prefix of the bytes of all the texts joined: all of them
(`Outlet.received_unlimited`), or as many as it has room for
(`Outlet.received_limited`).
-/

namespace Equilibration

namespace Outlet

/-- The outlet after a text was written to it, or as much as fits. -/
def offer : Outlet → String → Outlet
  | .stdout, _ => .stdout
  | .discard, _ => .discard
  | .buffer text, s => .buffer (text ++ s)
  | .file text, s => .file (text ++ ofBytes (bytesOf s))
  | .stream none text, s => .stream none (text ++ ofBytes (bytesOf s))
  | .stream (some room) text, s =>
    .stream (some (room - (bytesOf s).length))
      (text ++ ofBytes ((bytesOf s).take room))

/-- The bytes that a file or a stream has taken. -/
def received : Outlet → List UInt8
  | .file text | .stream _ text => text.toList.map fun c => UInt8.ofNat c.toNat
  | _ => []

/-! ## Bytes -/

@[simp] theorem bytesOf_empty : bytesOf "" = [] := rfl

theorem bytesOf_append (s t : String) :
    bytesOf (s ++ t) = bytesOf s ++ bytesOf t := by
  unfold bytesOf
  simp

@[simp] theorem ofBytes_nil : ofBytes [] = "" := rfl

theorem ofBytes_append (a b : List UInt8) :
    ofBytes (a ++ b) = ofBytes a ++ ofBytes b := by
  unfold ofBytes
  rw [List.map_append, String.ofList_append]

/-- The characters that are kept tell the bytes. -/
theorem bytes_of_ofBytes (bytes : List UInt8) :
    (ofBytes bytes).toList.map (fun c => UInt8.ofNat c.toNat) = bytes := by
  have hbyte : ∀ b : UInt8, UInt8.ofNat (Char.ofNat b.toNat).toNat = b := by
    intro b
    have hvalid : b.toNat.isValidChar :=
      .inl (Nat.lt_trans b.toNat_lt (by decide))
    rw [Char.ofNat, dif_pos hvalid]
    exact UInt8.ofNat_toNat
  unfold ofBytes
  rw [String.toList_ofList, List.map_map]
  exact List.map_id'' hbyte bytes

/-! ## Writing in parts -/

variable (t : Outlet) (s : String) (w : World)

theorem write_snd : (t.write s w).2.1 = t.offer s := by
  cases t with
  | stream room text => cases room <;> rfl
  | _ => rfl

@[simp] theorem offer_empty : t.offer "" = t := by
  cases t with
  | stream room text =>
    cases room <;> simp [offer]
  | _ => simp [offer]

theorem offer_append (s' : String) :
    t.offer (s ++ s') = (t.offer s).offer s' := by
  cases t with
  | stream room text =>
    cases room with
    | none => simp [offer, bytesOf_append, ofBytes_append, String.append_assoc]
    | some room =>
      simp [offer, bytesOf_append, ofBytes_append, String.append_assoc,
        List.take_append, Nat.sub_add_eq]
  | _ => simp [offer, bytesOf_append, ofBytes_append, String.append_assoc]

/-- After a write that failed there is no room for anything. -/
theorem offer_of_full (h : (t.write s w).1 = false) (s' : String) :
    (t.offer s).offer s' = t.offer s := by
  cases t with
  | stream room text =>
    cases room with
    | none => cases h
    | some room =>
      have hroom : room - (bytesOf s).length = 0 := by
        have := of_decide_eq_false h
        omega
      simp [offer, hroom]
  | _ => cases h

/-- Lines leave what they leave joined, whether all are written or not. -/
theorem writeLines_fst (lines : List String) :
    (t.writeLines lines w).1 = t.offer (String.join lines) := by
  induction lines generalizing t w with
  | nil => exact (offer_empty t).symm
  | cons line lines ih =>
    rw [String.join_cons, offer_append, ← write_snd t line w]
    unfold writeLines
    cases hwrite : t.write line w with
    | mk taken rest =>
      cases taken with
      | true => exact ih rest.1 rest.2
      | false =>
        have hfull :=
          t.offer_of_full line w (by rw [hwrite]) (String.join lines)
        rw [← write_snd t line w, hwrite] at hfull
        exact hfull.symm

/-! ## Since the opening -/

theorem received_limited (k : Nat) :
    ((opened (.stream (some k))).offer s).received = (bytesOf s).take k := by
  show ("" ++ ofBytes ((bytesOf s).take k)).toList.map (fun c =>
      UInt8.ofNat c.toNat) = _
  rw [String.empty_append, bytes_of_ofBytes]

theorem received_unlimited {target : PrintTarget}
    (h : target = .file ∨ target = .stream none) :
    ((opened target).offer s).received = bytesOf s := by
  have htext :
      ("" ++ ofBytes (bytesOf s)).toList.map (fun c => UInt8.ofNat c.toNat)
        = bytesOf s := by rw [String.empty_append, bytes_of_ofBytes]
  rcases h with rfl | rfl <;> exact htext

theorem bufferText_buffer : ((opened .buffer).offer s).bufferText = .ok s :=
  congrArg Except.ok String.empty_append

/-! ## What can be shown -/

/-- Only a buffer shows what it holds. -/
theorem exists_bufferText_iff :
    (∃ shown, t.bufferText = .ok shown) ↔ ∃ text, t = .buffer text := by
  constructor
  · rintro ⟨shown, h⟩
    cases t with
    | buffer text => exact ⟨text, rfl⟩
    | _ => cases h
  · rintro ⟨text, rfl⟩
    exact ⟨text, rfl⟩

/-- Writing makes no outlet a buffer, and a buffer nothing else. -/
theorem exists_offer_eq_buffer_iff :
    (∃ text, t.offer s = .buffer text) ↔ ∃ text, t = .buffer text := by
  cases t with
  | buffer text => exact ⟨fun _ => ⟨text, rfl⟩, fun _ => ⟨text ++ s, rfl⟩⟩
  | stream room text =>
    cases room <;> exact ⟨fun ⟨_, h⟩ => (nomatch h), fun ⟨_, h⟩ => (nomatch h)⟩
  | _ => exact ⟨fun ⟨_, h⟩ => (nomatch h), fun ⟨_, h⟩ => (nomatch h)⟩

end Outlet

end Equilibration
