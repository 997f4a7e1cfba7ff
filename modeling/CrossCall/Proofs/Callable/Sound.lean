import CrossCall.Callable.Registry
import CrossCall.Proofs.Runs

/-! Identities over time. What a live callable was made from decides its identity: the numbers of
closures are drawn one after the other and never twice, and an object that a callable is bound to is
alive, so no other living object has its address. -/

namespace CrossCall.Callable

variable {T τ : Type}

/-- The identity of a callable of some origin, in a registry whose first closure had the number
`first`. -/
inductive Origin.Gives (first : UInt64) (r : Registry T τ) : Origin T → Identity T → Prop where
  | stateless (type : T) : Gives first r (.free (.stateless type)) (.free type)
  | pointer (address : Nat) : Gives first r (.free (.pointer address)) (.pointer address)
  | stateful (k : Nat) : k < r.drawn →
      Gives first r (.free .stateful) (.closure (first + .ofNat k))
  | closure (k : Nat) : k < r.drawn → Gives first r .closure (.closure (first + .ofNat k))
  | bound (method : T) (object : Nat) (x : Object) : r.objects[object]? = some x →
      Gives first r (.bound method object) (.bound method x.address)

theorem Origin.Gives.mono {first : UInt64} {r t : Registry T τ} {origin : Origin T}
    {i : Identity T} (h : origin.Gives first r i) (hdrawn : r.drawn ≤ t.drawn)
    (hobjects : ∀ (o : Nat) (x : Object), r.objects[o]? = some x →
      ∃ y, t.objects[o]? = some y ∧ y.address = x.address) : origin.Gives first t i := by
  cases h with
  | stateless type => exact .stateless type
  | pointer address => exact .pointer address
  | stateful k hk => exact .stateful k (Nat.lt_of_lt_of_le hk hdrawn)
  | closure k hk => exact .closure k (Nat.lt_of_lt_of_le hk hdrawn)
  | bound method o x hx =>
    obtain ⟨y, hy, hyx⟩ := hobjects o x hx
    exact hyx ▸ .bound method o y hy

/-- A callable as it is made, from where, and the number that the next closure gets. -/
inductive Registry.Makes (r : Registry T τ) : Callable T τ → Origin T → UInt64 → Prop where
  | free (target : τ) (arity : Nat) (linkage : Linkage T) :
      Makes r (Callable.free target arity linkage r.next).1 (.free linkage)
        (Callable.free target arity linkage r.next).2
  | closure (target : τ) (arity : Nat) :
      Makes r (Callable.closure target arity r.next).1 .closure
        (Callable.closure (T := T) target arity r.next).2
  | bound (target : τ) (arity : Nat) (method : T) (object address : Nat) :
      r.objects[object]? = some ⟨address, true⟩ →
      Makes r (Callable.bound target arity method address) (.bound method object) r.next

namespace Registry

variable {r t : Registry T τ} {m : Move T τ} {first : UInt64}

inductive Step (r : Registry T τ) : Registry T τ → Prop where
  | allocate (address : Nat) : r.isVacant address →
      Step r { r with objects := r.objects ++ [{ address }] }
  | forget (o : Nat) :
      Step r { r with objects := r.objects.modify o fun x => { x with handled := false } }
  | make (callable : Callable T τ) (origin : Origin T) (next : UInt64) :
      r.Makes callable origin next → Step r (r.add callable origin next)
  | clone (e : Entry T τ) : e ∈ r.live → Step r { r with live := r.live ++ [e] }
  | drop (k : Nat) : Step r { r with live := r.live.eraseIdx k }

theorem step_of_move (h : r.move m = some t) : r.Step t := by
  cases m with
  | allocate address =>
    simp only [move] at h
    split at h
    · next hv => exact Option.some.inj h ▸ .allocate address hv
    · cases h
  | forget o => exact Option.some.inj h ▸ .forget o
  | free target arity linkage =>
    exact Option.some.inj h ▸ .make _ _ _ (.free target arity linkage)
  | closure target arity => exact Option.some.inj h ▸ .make _ _ _ (.closure target arity)
  | bound target arity method o =>
    simp only [move] at h
    split at h
    · next address ho =>
      exact Option.some.inj h ▸ .make _ _ _ (.bound target arity method o address ho)
    · cases h
  | clone k =>
    obtain ⟨e, he, rfl⟩ := Option.map_eq_some_iff.mp h
    exact .clone e (List.mem_of_getElem? he)
  | drop k =>
    simp only [move] at h
    split at h
    · exact Option.some.inj h ▸ .drop k
    · cases h

/-- No two living objects are at one address. -/
def Apart (r : Registry T τ) : Prop :=
  ∀ (o o' : Nat) (x x' : Object), r.objects[o]? = some x → r.objects[o']? = some x' →
    r.isAlive o → r.isAlive o' → x.address = x'.address → o = o'

structure Sound (first : UInt64) (r : Registry T τ) : Prop where
  next : r.next = first + .ofNat r.drawn
  gives : ∀ e ∈ r.live, e.origin.Gives first r e.callable.identity
  made : ∀ e ∈ r.live, e.making < r.made
  /-- What goes back to one making is one callable. -/
  clones : ∀ e ∈ r.live, ∀ f ∈ r.live, e.making = f.making → e = f
  /-- No number was drawn for two makings. -/
  numbers : ∀ e ∈ r.live, ∀ f ∈ r.live, ∀ n, e.callable.identity = .closure n →
    f.callable.identity = .closure n → e.making = f.making
  apart : r.Apart

/-! ### Objects -/

theorem isAlive_of_bound {e : Entry T τ} (he : e ∈ r.live) {method : T} {o : Nat}
    (ho : e.origin = .bound method o) : r.isAlive o := by
  rw [isAlive, Bool.or_eq_true, List.any_eq_true]
  exact .inr ⟨e, he, by rw [Entry.isBoundTo, ho]; exact decide_eq_true rfl⟩

/-- Where objects stay where they are and none comes to life, they stay apart. -/
theorem Apart.of_alive (h : r.Apart)
    (hobjects : ∀ (o : Nat) (x : Object), t.objects[o]? = some x →
      ∃ y, r.objects[o]? = some y ∧ y.address = x.address)
    (halive : ∀ o, t.isAlive o → r.isAlive o) : t.Apart := by
  intro o o' x x' hx hx' ho ho' haddress
  obtain ⟨y, hy, hyx⟩ := hobjects o x hx
  obtain ⟨y', hy', hyx'⟩ := hobjects o' x' hx'
  exact h o o' y y' hy hy' (halive o ho) (halive o' ho') (by rw [hyx, hyx', haddress])

theorem Apart.allocate (h : r.Apart) {address : Nat} (hv : r.isVacant address)
    (ht : t = { r with objects := r.objects ++ [{ address }] }) : t.Apart := by
  subst ht
  -- A living object from before is not at the address that the new one got.
  have hold (o : Nat) (x : Object) (hx : r.objects[o]? = some x)
      (ho : r.isAlive o) : x.address ≠ address := by
    have hlt : o < r.objects.length := (List.getElem?_eq_some_iff.mp hx).1
    have hfree := List.all_eq_true.mp hv o (List.mem_range.mpr hlt)
    rw [ho, hx] at hfree
    simpa using hfree
  have halive (o : Nat) (hlt : o < r.objects.length)
      (ho : isAlive { r with objects := r.objects ++ [{ address }] } o) : r.isAlive o := by
    rwa [isAlive, List.getElem?_append_left hlt] at ho
  have hplace (o : Nat) (x : Object)
      (hx : (r.objects ++ [({ address } : Object)])[o]? = some x) :
      (o < r.objects.length ∧ r.objects[o]? = some x) ∨
        (o = r.objects.length ∧ x.address = address) := by
    rcases Nat.lt_or_ge o r.objects.length with hlt | hge
    · exact .inl ⟨hlt, (List.getElem?_append_left hlt).symm.trans hx⟩
    · rw [List.getElem?_append_right hge, List.getElem?_singleton] at hx
      split at hx
      · next hz => exact .inr ⟨by omega, by rw [← Option.some.inj hx]⟩
      · cases hx
  intro o o' x x' hx hx' ho ho' haddress
  rcases hplace o x hx with ⟨hlt, hx⟩ | ⟨rfl, hxa⟩ <;>
    rcases hplace o' x' hx' with ⟨hlt', hx'⟩ | ⟨rfl, hxa'⟩
  · exact h o o' x x' hx hx' (halive o hlt ho) (halive o' hlt' ho') haddress
  · exact absurd (haddress.trans hxa') (hold o x hx (halive o hlt ho))
  · exact absurd (haddress.symm.trans hxa) (hold o' x' hx' (halive o' hlt' ho'))
  · rfl

theorem Apart.forget (h : r.Apart) (o : Nat) :
    Apart { r with objects := r.objects.modify o fun x => { x with handled := false } } := by
  refine h.of_alive (fun o' x hx => ?_) fun o' ho' => ?_
  · rw [List.getElem?_modify] at hx
    obtain ⟨y, hy, rfl⟩ := Option.map_eq_some_iff.mp hx
    exact ⟨y, hy, by split <;> rfl⟩
  · rw [isAlive, Bool.or_eq_true] at ho' ⊢
    refine ho'.imp_left fun hh => ?_
    obtain ⟨x, hx, hhandled⟩ := (Option.any_eq_true _ _).mp hh
    rw [List.getElem?_modify] at hx
    obtain ⟨y, hy, rfl⟩ := Option.map_eq_some_iff.mp hx
    refine (Option.any_eq_true _ _).mpr ⟨y, hy, ?_⟩
    split at hhandled
    · cases hhandled
    · exact hhandled

/-- Entries that are bound to living objects only keep no other object alive. -/
theorem Apart.of_live (h : r.Apart) {s : Registry T τ} (hobjects : s.objects = r.objects)
    (hlive : ∀ e ∈ s.live, e ∈ r.live ∨ ∀ o, e.isBoundTo o → r.isAlive o) : s.Apart := by
  refine h.of_alive (fun o x hx => ⟨x, hobjects ▸ hx, rfl⟩) fun o ho => ?_
  rw [isAlive, hobjects, Bool.or_eq_true, List.any_eq_true] at ho
  rcases ho with hh | ⟨e, he, hbound⟩
  · rw [isAlive, hh, Bool.true_or]
  · rcases hlive e he with he | halive
    · rw [isAlive, Bool.or_eq_true]
      exact .inr (List.any_eq_true.mpr ⟨e, he, hbound⟩)
    · exact halive o hbound

/-! ### Makings -/

theorem drawn_add (r : Registry T τ) (callable : Callable T τ) (origin : Origin T) :
    (r.add callable origin r.next).drawn = r.drawn := if_pos rfl

theorem drawn_add_succ (r : Registry T τ) (callable : Callable T τ) (origin : Origin T) :
    (r.add callable origin (r.next + 1)).drawn = r.drawn + 1 := by
  have hne : r.next + 1 ≠ r.next := by
    intro h
    have hone : (1 : UInt64) = 0 := by
      rw [← UInt64.add_sub_cancel 1 r.next, UInt64.add_comm, h, UInt64.sub_self]
    cases hone
  exact if_neg hne

/-- A making draws the next number, or none and then it does not make a closure. -/
theorem Makes.draws {callable : Callable T τ} {origin : Origin T} {next : UInt64}
    (h : r.Makes callable origin next) (first : UInt64) :
    (next = r.next + 1 ∧ callable.identity = .closure r.next ∧
      (origin = .free .stateful ∨ origin = .closure)) ∨
    (next = r.next ∧ (∀ n, callable.identity ≠ .closure n) ∧
      origin.Gives first r callable.identity) := by
  cases h with
  | free target arity linkage =>
    cases linkage with
    | stateless type => exact .inr ⟨rfl, nofun, .stateless type⟩
    | pointer address => exact .inr ⟨rfl, nofun, .pointer address⟩
    | stateful => exact .inl ⟨rfl, rfl, .inl rfl⟩
  | closure target arity => exact .inl ⟨rfl, rfl, .inr rfl⟩
  | bound target arity method o address ho => exact .inr ⟨rfl, nofun, .bound method o _ ho⟩

theorem Makes.alive {callable : Callable T τ} {origin : Origin T} {next : UInt64} {making o : Nat}
    (h : r.Makes callable origin next) (ho : Entry.isBoundTo o ⟨callable, making, origin⟩) :
    r.isAlive o := by
  cases h with
  | free | closure => cases ho
  | bound target arity method o' address hobject =>
    obtain rfl : o' = o := of_decide_eq_true ho
    rw [isAlive, hobject]
    rfl

theorem drawn_le (h : r.Step t) : r.drawn ≤ t.drawn := by
  cases h with
  | make callable origin next hm =>
    rw [add]
    split
    · exact Nat.le_refl _
    · exact Nat.le_succ _
  | _ => exact Nat.le_refl _

theorem ofNat_ne {k n : Nat} (hk : k < n) (hn : n < UInt64.size) (first : UInt64) :
    first + .ofNat k ≠ first + .ofNat n := by
  intro h
  have heq : UInt64.ofNat k = UInt64.ofNat n := by simpa using h
  have hnat := congrArg UInt64.toNat heq
  rw [UInt64.toNat_ofNat_of_lt' (Nat.lt_trans hk hn), UInt64.toNat_ofNat_of_lt' hn] at hnat
  omega

namespace Sound

/-- A living closure has a number that was drawn before the next one. -/
theorem ne_next (h : r.Sound first) (hd : r.drawn < UInt64.size) {e : Entry T τ}
    (he : e ∈ r.live) : e.callable.identity ≠ .closure r.next := by
  intro hnext
  have hgives := h.gives e he
  rw [hnext, h.next] at hgives
  generalize hn : first + UInt64.ofNat r.drawn = n at hgives
  generalize e.origin = origin at hgives
  cases hgives with
  | stateful k hk => exact ofNat_ne hk hd first hn.symm
  | closure k hk => exact ofNat_ne hk hd first hn.symm

theorem add (h : r.Sound first) {callable : Callable T τ} {origin : Origin T} {next : UInt64}
    (hm : r.Makes callable origin next) (hd : (r.add callable origin next).drawn < UInt64.size) :
    (r.add callable origin next).Sound first := by
  have hdrawn : r.drawn ≤ (r.add callable origin next).drawn := drawn_le (.make _ _ _ hm)
  have hmem (e : Entry T τ) (he : e ∈ (r.add callable origin next).live) :
      e ∈ r.live ∨ e = ⟨callable, r.made, origin⟩ := by
    simpa [Registry.add] using he
  have hold (e : Entry T τ) (he : e ∈ r.live) :
      e.origin.Gives first (r.add callable origin next) e.callable.identity :=
    (h.gives e he).mono hdrawn fun o x hx => ⟨x, hx, rfl⟩
  have hmade (e : Entry T τ) (he : e ∈ r.live) : e.making ≠ r.made := Nat.ne_of_lt (h.made e he)
  -- Whichever kind is made, no closure from before has the number of the new one.
  have hnew (e : Entry T τ) (he : e ∈ r.live) (n : UInt64) (hn : callable.identity = .closure n) :
      e.callable.identity ≠ .closure n := by
    rcases hm.draws first with ⟨rfl, hid, -⟩ | ⟨-, hid, -⟩
    · obtain rfl : r.next = n := Identity.closure.inj (hid.symm.trans hn)
      exact h.ne_next (Nat.lt_of_le_of_lt hdrawn hd) he
    · exact absurd hn (hid n)
  refine ⟨?_, fun e he => ?_, fun e he => ?_, fun e he f hf hef => ?_,
    fun e he f hf n hen hfn => ?_, ?_⟩
  · rcases hm.draws first with ⟨rfl, -⟩ | ⟨rfl, -⟩
    · rw [drawn_add_succ, UInt64.ofNat_add, ← UInt64.add_assoc, ← h.next]
      rfl
    · rw [drawn_add]
      exact h.next
  · rcases hmem e he with he | rfl
    · exact hold e he
    · rcases hm.draws first with ⟨rfl, hid, horigin⟩ | ⟨rfl, -, hgives⟩
      · have hnumber : callable.identity = .closure (first + .ofNat r.drawn) := h.next ▸ hid
        rw [hnumber]
        have hlt : r.drawn < (r.add callable origin (r.next + 1)).drawn := by
          rw [drawn_add_succ]
          exact Nat.lt_succ_self _
        rcases horigin with rfl | rfl
        · exact .stateful r.drawn hlt
        · exact .closure r.drawn hlt
      · exact hgives.mono hdrawn fun o x hx => ⟨x, hx, rfl⟩
  · rcases hmem e he with he | rfl
    · exact Nat.lt_succ_of_lt (h.made e he)
    · exact Nat.lt_succ_self _
  · rcases hmem e he with he | rfl <;> rcases hmem f hf with hf | rfl
    · exact h.clones e he f hf hef
    · exact absurd hef (hmade e he)
    · exact absurd hef.symm (hmade f hf)
    · rfl
  · rcases hmem e he with he | rfl <;> rcases hmem f hf with hf | rfl
    · exact h.numbers e he f hf n hen hfn
    · exact absurd hen (hnew e he n hfn)
    · exact absurd hfn (hnew f hf n hen)
    · rfl
  · refine h.apart.of_live rfl fun e he => ?_
    rcases hmem e he with he | rfl
    · exact .inl he
    · exact .inr fun o ho => hm.alive ho

/-- Clones and drops leave of the callables those there were. -/
theorem of_live (h : r.Sound first) {live : List (Entry T τ)} (hlive : ∀ e ∈ live, e ∈ r.live) :
    Sound first { r with live } where
  next := h.next
  gives e he := (h.gives e (hlive e he)).mono (Nat.le_refl _) fun _ x hx => ⟨x, hx, rfl⟩
  made e he := h.made e (hlive e he)
  clones e he f hf := h.clones e (hlive e he) f (hlive f hf)
  numbers e he f hf := h.numbers e (hlive e he) f (hlive f hf)
  apart := h.apart.of_live rfl fun e he => .inl (hlive e he)

theorem step (h : r.Sound first) (hs : r.Step t) (hd : t.drawn < UInt64.size) : t.Sound first := by
  cases hs with
  | allocate address hv =>
    refine ⟨h.next, fun e he => ?_, h.made, h.clones, h.numbers, h.apart.allocate hv rfl⟩
    refine (h.gives e he).mono (Nat.le_refl _) fun o x hx => ⟨x, ?_, rfl⟩
    exact (List.getElem?_append_left (List.getElem?_eq_some_iff.mp hx).1).trans hx
  | forget o =>
    refine ⟨h.next, fun e he => ?_, h.made, h.clones, h.numbers, h.apart.forget o⟩
    refine (h.gives e he).mono (Nat.le_refl _) fun o x hx => ?_
    rw [List.getElem?_modify, hx]
    exact ⟨_, rfl, by split <;> rfl⟩
  | make callable origin next hm => exact h.add hm hd
  | clone e he =>
    refine h.of_live fun f hf => ?_
    rcases List.mem_append.mp hf with hf | hf
    · exact hf
    · exact List.mem_singleton.mp hf ▸ he
  | drop k => exact h.of_live fun f hf => List.mem_of_mem_eraseIdx hf

end Sound

theorem Reachable.sound (h : r.Reachable) (hd : r.drawn < UInt64.size) :
    ∃ first, r.Sound first := by
  induction h with
  | @start r hs =>
    obtain ⟨hdrawn, hmade, hobjects, hlive⟩ := hs
    refine ⟨r.next, ?_, ?_, ?_, ?_, ?_, ?_⟩
    · rw [hdrawn]
      exact (UInt64.add_zero _).symm
    · simp [hlive]
    · simp [hlive]
    · simp [hlive]
    · simp [hlive]
    · intro o o' x x' hx
      simp [hobjects] at hx
  | @move r t m hr hm ih =>
    have hstep := step_of_move hm
    obtain ⟨first, hsound⟩ := ih (Nat.lt_of_le_of_lt (drawn_le hstep) hd)
    exact ⟨first, hsound.step hstep hd⟩

end Registry
end CrossCall.Callable
