import CrossCall.Concurrent.Reachable

/-! Runs of moves: induction over them, putting two of them together, and the move at which
something becomes true, for the first time or for the rest of the run. Where a move replaces one
entry of a list, the list is cut at that entry, so that counting and searching see the entry and the
two sides of it. -/

namespace CrossCall

universe u v
variable {S : Type u} {M : Type v} {move : S → M → Option S} {start : S → Prop} {s t : S}

theorem Reachable.trans (h : Reachable move start s) (h' : Reachable move (· = s) t) :
    Reachable move start t := by
  induction h' with
  | start hs => exact hs ▸ h
  | move m _ hm ih => exact .move m ih hm

theorem Reachable.refl (s : S) : Reachable move (· = s) s := .start rfl

/-- What every move keeps holds after all moves. -/
theorem Reachable.keeps {P : S → Prop} (hkeep : ∀ s m t, P s → move s m = some t → P t)
    (h : Reachable move start s) (hstart : ∀ s, start s → P s) : P s := by
  induction h with
  | start hs => exact hstart _ hs
  | move m _ hm ih => exact hkeep _ m _ ih hm

/-- What every move from a reachable state keeps holds from then on. -/
theorem Reachable.keeps_from {P : S → Prop} (hs : Reachable move start s)
    (hkeep : ∀ s m t, Reachable move start s → P s → move s m = some t → P t) (hP : P s)
    (h : Reachable move (· = s) t) : P t := by
  have key : Reachable move start t ∧ P t := by
    induction h with
    | start hst => exact hst ▸ ⟨hs, hP⟩
    | move m _ hm ih => exact ⟨.move m ih.1 hm, hkeep _ m _ ih.1 ih.2 hm⟩
  exact key.2

theorem afterMoves_append (s : S) (before after : List M) :
    afterMoves move s (before ++ after) =
      (afterMoves move s before).bind fun t => afterMoves move t after := by
  induction before generalizing s with
  | nil => rfl
  | cons m rest ih =>
    simp only [List.cons_append, afterMoves]
    cases move s m with
    | none => rfl
    | some t => exact ih t

theorem Reachable.of_afterMoves {ms : List M} (h : afterMoves move s ms = some t) :
    Reachable move (· = s) t := by
  induction ms generalizing s with
  | nil => exact Option.some.inj h ▸ .refl s
  | cons m rest ih =>
    obtain ⟨u, hm, hu⟩ := Option.bind_eq_some_iff.mp h
    exact Reachable.trans (.move m (.refl s) hm) (ih hu)

/-- In a run at whose end something holds that did not hold at its start, one move makes it so. -/
theorem exists_turn {P : S → Prop} {ms : List M} (h : afterMoves move s ms = some t)
    (hs : ¬ P s) (ht : P t) :
    ∃ before m after u v, ms = before ++ m :: after ∧ afterMoves move s before = some u ∧
      move u m = some v ∧ afterMoves move v after = some t ∧ ¬ P u ∧ P v := by
  induction ms generalizing s with
  | nil => exact absurd (Option.some.inj h ▸ ht) hs
  | cons m rest ih =>
    obtain ⟨u, hm, hu⟩ := Option.bind_eq_some_iff.mp h
    -- The first move makes it so, or one of those that lead on from where it does not hold yet.
    by_cases hP : P u
    · exact ⟨[], m, rest, s, u, rfl, rfl, hm, hu, hs, hP⟩
    · obtain ⟨before, n, after, v, w, hms, hv, hn, hw, hPv, hPw⟩ := ih hu hP
      refine ⟨m :: before, n, after, v, w, by rw [hms, List.cons_append], ?_, hn, hw, hPv, hPw⟩
      simp [afterMoves, hm, hv]

/-- It holds wherever a run passes, at its start and at its end too. -/
def AllAlong (move : S → M → Option S) (P : S → Prop) : S → List M → Prop
  | s, [] => P s
  | s, m :: rest => P s ∧ ∀ t ∈ move s m, AllAlong move P t rest

instance AllAlong.decidable {P : S → Prop} [DecidablePred P] :
    ∀ (s : S) (ms : List M), Decidable (AllAlong move P s ms)
  | s, [] => inferInstanceAs (Decidable (P s))
  | s, m :: rest =>
    have (t : S) : Decidable (AllAlong move P t rest) := decidable t rest
    inferInstanceAs (Decidable (P s ∧ ∀ t ∈ move s m, AllAlong move P t rest))

theorem AllAlong.head {P : S → Prop} {ms : List M} (h : AllAlong move P s ms) : P s := by
  cases ms with
  | nil => exact h
  | cons m rest => exact h.1

/-- What holds wherever a run passes holds wherever the rest of it passes. -/
theorem AllAlong.rest {P : S → Prop} {before after : List M}
    (h : AllAlong move P s (before ++ after)) (ht : afterMoves move s before = some t) :
    AllAlong move P t after := by
  induction before generalizing s with
  | nil => exact Option.some.inj ht ▸ h
  | cons m rest ih =>
    obtain ⟨u, hm, hu⟩ := Option.bind_eq_some_iff.mp ht
    exact ih (h.2 u hm) hu

theorem AllAlong.front {P : S → Prop} {before after : List M}
    (h : AllAlong move P s (before ++ after)) : AllAlong move P s before := by
  induction before generalizing s with
  | nil => exact h.head
  | cons m rest ih => exact ⟨h.1, fun t ht => ih (h.2 t ht)⟩

theorem AllAlong.of_forall {P : S → Prop} (h : ∀ s, P s) {ms : List M} :
    AllAlong move P s ms := by
  induction ms generalizing s with
  | nil => exact h s
  | cons m rest ih => exact ⟨h s, fun _ _ => ih⟩

theorem AllAlong.last {P : S → Prop} {ms : List M} (h : AllAlong move P s ms)
    (ht : afterMoves move s ms = some t) : P t := by
  rw [← List.append_nil ms] at h
  exact (h.rest ht).head

/-- In a run at whose end something holds that did not hold all along, one move makes it so for the
rest of the run. -/
theorem exists_last_turn {P : S → Prop} {ms : List M} (h : afterMoves move s ms = some t)
    (hs : ¬ AllAlong move P s ms) (ht : P t) :
    ∃ before m after u v, ms = before ++ m :: after ∧ afterMoves move s before = some u ∧
      move u m = some v ∧ ¬ P u ∧ AllAlong move P v after := by
  induction ms generalizing s with
  | nil => exact absurd (Option.some.inj h ▸ ht) hs
  | cons m rest ih =>
    obtain ⟨u, hm, hu⟩ := Option.bind_eq_some_iff.mp h
    -- Where it holds from the first move on, that move makes it so; else it is one of the others.
    by_cases hall : AllAlong move P u rest
    · refine ⟨[], m, rest, s, u, rfl, rfl, hm, fun hP => hs ⟨hP, fun t ht => ?_⟩, hall⟩
      rwa [← Option.some.inj (hm.symm.trans ht)]
    · obtain ⟨before, n, after, v, w, hms, hv, hn, hPv, hw⟩ := ih hu hall
      refine ⟨m :: before, n, after, v, w, by rw [hms, List.cons_append], ?_, hn, hPv, hw⟩
      simp [afterMoves, hm, hv]

/-- A list around the entry at one place, and what replacing or removing the entry makes of it. -/
theorem exists_sides {α : Type u} {l : List α} {i : Nat} {a : α} (h : l[i]? = some a) :
    ∃ before after, l = before ++ a :: after ∧ (∀ b, l.set i b = before ++ b :: after) ∧
      (∀ f, l.modify i f = before ++ f a :: after) ∧ l.eraseIdx i = before ++ after := by
  obtain ⟨hi, ha⟩ := List.getElem?_eq_some_iff.mp h
  refine ⟨l.take i, l.drop (i + 1), ?_, fun b => ?_, fun f => ?_, ?_⟩
  · rw [← ha, List.getElem_cons_drop, List.take_append_drop]
  · rw [List.set_eq_take_append_cons_drop, if_pos hi]
  · rw [List.modify_eq_take_cons_drop hi, ha]
  · rw [List.eraseIdx_eq_take_drop_succ]

theorem getElem?_set_of_some {α : Type u} {l : List α} {i : Nat} {a : α} (h : l[i]? = some a)
    (b : α) : (l.set i b)[i]? = some b :=
  List.getElem?_set_self (List.getElem?_eq_some_iff.mp h).1

/-- Of a list in which one entry was replaced, every other entry was there before. -/
theorem mem_sides {α : Type u} {before after : List α} {a y : α} (b : α)
    (h : y ∈ before ++ a :: after) : y = a ∨ y ∈ before ++ b :: after := by
  rw [List.mem_append, List.mem_cons] at h
  rw [List.mem_append, List.mem_cons]
  rcases h with h | h | h
  · exact .inr (.inl h)
  · exact .inl h
  · exact .inr (.inr (.inr h))

theorem countP_sides {α : Type u} (P : α → Bool) (before after : List α) (a : α) :
    (before ++ a :: after).countP P = before.countP P + (P a).toNat + after.countP P := by
  rw [List.countP_append, List.countP_cons]
  cases P a with
  | false => simp
  | true =>
    simp only [if_true, Bool.toNat_true]
    omega

theorem countP_eq_any {α : Type u} {P : α → Bool} {l : List α} (h : l.countP P ≤ 1) :
    l.countP P = (l.any P).toNat := by
  cases ha : l.any P with
  | false =>
    rw [List.any_eq_false] at ha
    exact List.countP_eq_zero.mpr ha
  | true => exact Nat.le_antisymm h (List.countP_pos_iff.mpr (List.any_eq_true.mp ha))

/-- Of a list with one entry at most that passes, the entries that pass stand at one place. -/
theorem eq_of_countP_le_one {α : Type u} {P : α → Bool} {l : List α} {j k : Nat} {a b : α}
    (h : l.countP P ≤ 1) (hj : l[j]? = some a) (hk : l[k]? = some b) (ha : P a) (hb : P b) :
    j = k := by
  refine Decidable.byContradiction fun hne => ?_
  obtain ⟨before, after, hl, -, -, herase⟩ := exists_sides hj
  have hmem : b ∈ before ++ after :=
    herase ▸ List.mem_eraseIdx_iff_getElem?.mpr ⟨k, Ne.symm hne, hk⟩
  have hpos : 0 < (before ++ after).countP P := List.countP_pos_iff.mpr ⟨b, hmem, hb⟩
  rw [hl, countP_sides, ha, Bool.toNat_true] at h
  rw [List.countP_append] at hpos
  omega

/-- Of a list with one entry at most that passes, an entry that passes is the only one. -/
theorem filter_sides {α : Type u} {P : α → Bool} {before after : List α} {a : α}
    (h : ((before ++ a :: after).filter P).length ≤ 1) (ha : P a) :
    before.filter P = [] ∧ after.filter P = [] := by
  rw [List.filter_append, List.filter_cons_of_pos ha, List.length_append, List.length_cons] at h
  exact ⟨List.eq_nil_of_length_eq_zero (by omega), List.eq_nil_of_length_eq_zero (by omega)⟩

end CrossCall
