import CrossCall.Callable.Table

/-! Callables that are the same. Being the same is an equivalence, and callables that are the same
have one hash, so a hash table of any size and with any hasher finds for each callable of a list the
first one that is the same. -/

namespace CrossCall.Callable

variable {T τ : Type} {a b c : Callable T τ}

section

variable [DecidableEq T]

theorem same_iff : a.same b ↔ a.arity = b.arity ∧ a.identity = b.identity := by
  simp [same]

theorem same_refl (a : Callable T τ) : a.same a := same_iff.mpr ⟨rfl, rfl⟩

theorem same_comm (a b : Callable T τ) : a.same b = b.same a := by
  simp only [same, eq_comm]

theorem same_trans (hab : a.same b) (hbc : b.same c) : a.same c := by
  obtain ⟨harity, hid⟩ := same_iff.mp hab
  obtain ⟨harity', hid'⟩ := same_iff.mp hbc
  exact same_iff.mpr ⟨harity.trans harity', hid.trans hid'⟩

/-- What is the same as one of two that are the same is the same as the other. -/
theorem same_congr (h : a.same b) (c : Callable T τ) : a.same c = b.same c := by
  rw [Bool.eq_iff_iff]
  exact ⟨same_trans (same_comm a b ▸ h), same_trans h⟩

theorem hash_eq_of_same (h : Hasher T) (hab : a.same b) : a.hash h = b.hash h := by
  rw [hash, hash, (same_iff.mp hab).2]

theorem kind_eq_of_same (hab : a.same b) : a.identity.kind = b.identity.kind := by
  rw [(same_iff.mp hab).2]

theorem getElem?_groups {callables : List (Callable T τ)} {i : Nat} (h : callables[i]? = some a) :
    (groups callables)[i]? = some (callables.findIdx (same a)) := by
  rw [groups, List.getElem?_map, h, Option.map_some]

/-- Two callables of a list get one number if they are the same, and only then. -/
theorem groups_eq_iff {callables : List (Callable T τ)} {i j : Nat} (ha : callables[i]? = some a)
    (hb : callables[j]? = some b) :
    (groups callables)[i]? = (groups callables)[j]? ↔ a.same b := by
  rw [getElem?_groups ha, getElem?_groups hb, Option.some.injEq]
  constructor
  · intro h
    have hia : callables.findIdx (same a) < callables.length :=
      List.findIdx_lt_length_of_exists ⟨a, List.mem_of_getElem? ha, same_refl a⟩
    have hib : callables.findIdx (same b) < callables.length :=
      List.findIdx_lt_length_of_exists ⟨b, List.mem_of_getElem? hb, same_refl b⟩
    have hac := List.findIdx_getElem (w := hia)
    have hbc := List.findIdx_getElem (w := hib)
    simp only [← h] at hbc
    exact same_trans hac (same_comm b _ ▸ hbc)
  · intro h
    rw [show same a = same b from funext (same_congr h)]

end

namespace Table

variable {t : Table T τ}

theorem slot_insert (t : Table T τ) (c d : Callable T τ) (n : Nat) :
    (t.insert c n).slot d = t.slot d := by
  simp [slot, insert]

theorem slot_lt (h : 0 < t.buckets.size) (c : Callable T τ) : t.slot c < t.buckets.size :=
  Nat.mod_lt _ h

variable [DecidableEq T]

theorem slot_eq_of_same (h : a.same b) : t.slot a = t.slot b := by
  rw [slot, slot, hash_eq_of_same t.hasher h]

theorem get?_insert (h : 0 < t.buckets.size) (c d : Callable T τ) (n : Nat) :
    (t.insert c n).get? d = (t.get? d).or (if c.same d then some n else none) := by
  have hd : t.slot d < t.buckets.size := slot_lt h d
  rw [get?, get?, slot_insert, Array.getElem?_eq_getElem hd]
  simp only [insert, Array.getElem?_modify, Array.getElem?_eq_getElem hd]
  by_cases hslot : t.slot c = t.slot d
  · simp only [if_pos hslot, Option.map_some, Option.bind_eq_bind, Option.bind_some,
      List.find?_append, List.find?_singleton]
    cases t.buckets[t.slot d].find? (·.1.same d) with
    | some e => rfl
    | none => cases c.same d <;> rfl
  · have hnot : ¬ c.same d := fun hs => hslot (slot_eq_of_same hs)
    rw [if_neg hslot, if_neg hnot, Option.or_none]

theorem get?_empty (hasher : Hasher T) (size : Nat) (c : Callable T τ) :
    (empty hasher size).get? c = none := by
  rw [get?, empty, Array.getElem?_replicate]
  split <;> rfl

/-- A table in which every callable of `before` has been looked up, and entered unless it was there,
goes on as if it were empty and looked for the first callable that is the same. -/
theorem groupsFrom_eq (rest : List (Callable T τ)) : ∀ (t : Table T τ) (before : List (Callable T τ)),
    0 < t.buckets.size → (∀ d, t.get? d = before.findIdx? (same d)) →
    t.groupsFrom before.length rest = rest.map fun c => (before ++ rest).findIdx (same c) := by
  induction rest with
  | nil => exact fun _ _ _ _ => rfl
  | cons c rest ih =>
    intro t before hsize hget
    have hlength : before.length + 1 = (before ++ [c]).length := by simp
    have happend : before ++ c :: rest = (before ++ [c]) ++ rest := by simp
    have hgrown (d : Callable T τ) : (before ++ [c]).findIdx? (same d) =
        (before.findIdx? (same d)).or (if c.same d then some before.length else none) := by
      rw [List.findIdx?_append, List.findIdx?_singleton, same_comm c d]
      cases d.same c <;> simp
    rw [groupsFrom, hget c, hlength]
    cases hc : before.findIdx? (same c) with
    | some k =>
      have hfirst : (before ++ c :: rest).findIdx (same c) = k := by
        rw [List.findIdx_append]
        obtain ⟨hk, rfl⟩ := List.findIdx?_eq_some_iff_findIdx_eq.mp hc
        rw [if_pos hk]
      -- A key that is the same is there already, so nothing is found that was not found before.
      have hkeeps (d : Callable T τ) : t.get? d = (before ++ [c]).findIdx? (same d) := by
        rw [hgrown, hget]
        by_cases hs : c.same d
        · rw [show same d = same c from (funext (same_congr hs)).symm, hc, Option.some_or]
        · rw [if_neg hs, Option.or_none]
      rw [List.map_cons, hfirst, happend]
      exact congrArg _ (ih t (before ++ [c]) hsize hkeeps)
    | none =>
      have hfirst : (before ++ c :: rest).findIdx (same c) = before.length := by
        have hnone := List.findIdx_eq_length_of_false (List.findIdx?_eq_none_iff.mp hc)
        rw [List.findIdx_append, hnone, if_neg (Nat.lt_irrefl _), List.findIdx_cons, same_refl]
        simp
      have hkeeps (d : Callable T τ) :
          (t.insert c before.length).get? d = (before ++ [c]).findIdx? (same d) := by
        rw [get?_insert hsize, hgrown, hget]
      have hsize' : 0 < (t.insert c before.length).buckets.size := by simpa [insert] using hsize
      rw [List.map_cons, hfirst, happend]
      exact congrArg _ (ih _ (before ++ [c]) hsize' hkeeps)

theorem groupsFrom_empty (hasher : Hasher T) {size : Nat} (h : 0 < size)
    (callables : List (Callable T τ)) :
    (empty hasher size).groupsFrom 0 callables = groups callables := by
  refine groupsFrom_eq callables _ [] (by simpa [empty] using h) fun d => ?_
  rw [get?_empty]
  rfl

end Table
end CrossCall.Callable
