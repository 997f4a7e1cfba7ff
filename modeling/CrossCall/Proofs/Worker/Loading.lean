import CrossCall.Worker.Spec
import Mathlib.Data.List.Nodup

/-! Loading a worker's specification. The grammar is told on its own: which entries are those of
fields, and what is wrong with an entry where others came before it. The loader keeps, entry by
entry, a draft of what was given so far; so it loads what follows the grammar, in any order of the
entries, and of anything else it reports the first fault. What is saved is loaded again, and what
can be built can be loaded; beyond that only a stack of no bytes can. -/

namespace CrossCall.WorkerSpec

/-! ### The grammar -/

inductive IsStackSize : Value → Option UInt64 → Prop where
  | unset : IsStackSize .null none
  | bytes (n : UInt64) : IsStackSize (.int n.toNat) (some n)

/-- Why a value is no stack size. -/
inductive IsNoStackSize : Value → LoadError → Prop where
  | range (n : Int) : ¬ FitsUnsigned n → IsNoStackSize (.int n) (.outOfRange (.int n) "usize")
  | kind (v : Value) : v ≠ .null → (∀ n, v ≠ .int n) → IsNoStackSize v (.wrongKind v "usize")

/-- The entry is that of a field and has a value of its kind. -/
inductive IsField (f : String × Value) : Prop where
  | name (s : String) : f.1 = "name" → f.2 = .text s → IsField f
  | stackSize (size : Option UInt64) : f.1 = "stack_size" → IsStackSize f.2 size → IsField f

structure IsLoadable (fields : List (String × Value)) : Prop where
  isField : ∀ f ∈ fields, IsField f
  distinct : (fields.map Prod.fst).Nodup

/-- What is wrong with an entry, where entries of these names came before it. -/
inductive Fault (earlier : List String) (f : String × Value) : LoadError → Prop where
  | unknown : f.1 ≠ "name" → f.1 ≠ "stack_size" →
      Fault earlier f (.unknownField f.1 ["name", "stack_size"])
  | repeated : f.1 = "name" ∨ f.1 = "stack_size" → f.1 ∈ earlier →
      Fault earlier f (.duplicateField f.1)
  | name : f.1 = "name" → f.1 ∉ earlier → (∀ s, f.2 ≠ .text s) →
      Fault earlier f (.wrongKind f.2 "a string")
  | stackSize (e : LoadError) : f.1 = "stack_size" → f.1 ∉ earlier → IsNoStackSize f.2 e →
      Fault earlier f e

def FirstFault (fields : List (String × Value)) (e : LoadError) : Prop :=
  ∃ before f after, fields = before ++ f :: after ∧ IsLoadable before ∧
    Fault (before.map Prod.fst) f e

/-- The specification has what the entries give, and the default of what they do not. -/
structure HasGiven (spec : WorkerSpec) (fields : List (String × Value)) : Prop where
  name : ∀ s, ("name", .text s) ∈ fields → spec.name = s
  noName : "name" ∉ fields.map Prod.fst → spec.name = default.name
  stackSize : ∀ v size, ("stack_size", v) ∈ fields → IsStackSize v size → spec.stackSize = size
  noStackSize : "stack_size" ∉ fields.map Prod.fst → spec.stackSize = default.stackSize

/-- What the values by position make: the name, then the stack size. -/
inductive IsListed : List Value → WorkerSpec → Prop where
  | nothing : IsListed [] default
  | name (s : String) : IsListed [.text s] { default with name := s }
  | both (s : String) {v : Value} {size : Option UInt64} : IsStackSize v size →
      IsListed [.text s, v] { name := s, stackSize := size }

/-- What can be built in steps. -/
inductive IsBuilt : WorkerSpec → Prop where
  | default : IsBuilt default
  | named (name : String) : IsBuilt (named name)
  | withStack {spec spec' : WorkerSpec} (bytes : UInt64) : IsBuilt spec →
      spec.withStack bytes = .ok spec' → IsBuilt spec'

variable {v : Value} {size : Option UInt64} {e e' : LoadError} {f : String × Value}
  {fields fields' before after : List (String × Value)} {earlier : List String}
  {spec spec' : WorkerSpec}

/-! ### Values -/

theorem loadName_eq_ok_iff {s : String} : loadName v = .ok s ↔ v = .text s := by
  cases v <;> simp [loadName]

theorem loadName_eq_error (h : ∀ s, v ≠ .text s) :
    loadName v = .error (.wrongKind v "a string") := by
  cases v with
  | text s => exact absurd rfl (h s)
  | _ => rfl

theorem loadStackSize_eq_ok_iff : loadStackSize v = .ok size ↔ IsStackSize v size := by
  constructor
  · intro h
    cases v with
    | null => exact Except.ok.inj h ▸ .unset
    | int n =>
      rw [loadStackSize] at h
      split at h
      · next hn =>
        obtain rfl := Except.ok.inj h
        have key := IsStackSize.bytes (UInt64.ofNat n.toNat)
        have hlt : n.toNat < UInt64.size := by rw [UInt64.size]; omega
        rwa [UInt64.toNat_ofNat_of_lt' hlt, Int.toNat_of_nonneg hn.1] at key
      · cases h
    | _ => cases h
  · intro h
    cases h with
    | unset => rfl
    | bytes n =>
      have hlt := n.toNat_lt
      rw [loadStackSize, if_pos ⟨by omega, by omega⟩, Int.toNat_natCast, UInt64.ofNat_toNat]

theorem loadStackSize_eq_error_iff : loadStackSize v = .error e ↔ IsNoStackSize v e := by
  constructor
  · intro h
    cases v with
    | null => cases h
    | int n =>
      rw [loadStackSize] at h
      split at h
      · cases h
      · next hn => exact Except.error.inj h ▸ .range n hn
    | _ => exact Except.error.inj h ▸ .kind _ nofun nofun
  · intro h
    cases h with
    | range n hn => exact if_neg hn
    | kind _ hnull hint =>
      cases v with
      | null => exact absurd rfl hnull
      | int n => exact absurd rfl (hint n)
      | _ => rfl

theorem IsStackSize.unique {size' : Option UInt64} (h : IsStackSize v size)
    (h' : IsStackSize v size') : size = size' :=
  Except.ok.inj ((loadStackSize_eq_ok_iff.mpr h).symm.trans (loadStackSize_eq_ok_iff.mpr h'))

theorem IsNoStackSize.unique (h : IsNoStackSize v e) (h' : IsNoStackSize v e') : e = e' :=
  Except.error.inj
    ((loadStackSize_eq_error_iff.mpr h).symm.trans (loadStackSize_eq_error_iff.mpr h'))

theorem IsNoStackSize.not_isStackSize (h : IsNoStackSize v e) : ¬ IsStackSize v size := fun h' =>
  nomatch (loadStackSize_eq_error_iff.mpr h).symm.trans (loadStackSize_eq_ok_iff.mpr h')

/-! ### Lists of entries -/

theorem IsField.known (h : IsField f) : f.1 = "name" ∨ f.1 = "stack_size" := by
  cases h with
  | name s hkey => exact .inl hkey
  | stackSize size hkey => exact .inr hkey

theorem IsLoadable.concat (h : IsLoadable fields) (hf : IsField f)
    (hnew : f.1 ∉ fields.map Prod.fst) : IsLoadable (fields ++ [f]) where
  isField g hg := (List.mem_append.mp hg).elim (h.isField g) fun hg => List.mem_singleton.mp hg ▸ hf
  distinct := by
    rw [List.map_append, List.map_singleton]
    exact List.nodup_append.mpr ⟨h.distinct, List.nodup_singleton _,
      fun a ha b hb hab => hnew (List.mem_singleton.mp hb ▸ hab ▸ ha)⟩

theorem IsLoadable.perm (h : IsLoadable fields) (hp : fields.Perm fields') :
    IsLoadable fields' where
  isField f hf := h.isField f (hp.mem_iff.mpr hf)
  distinct := (hp.map Prod.fst).nodup_iff.mp h.distinct

theorem HasGiven.perm (h : spec.HasGiven fields) (hp : fields.Perm fields') :
    spec.HasGiven fields' where
  name s hs := h.name s (hp.mem_iff.mpr hs)
  noName hn := h.noName fun hm => hn ((hp.map Prod.fst).mem_iff.mp hm)
  stackSize v size hv := h.stackSize v size (hp.mem_iff.mpr hv)
  noStackSize hn := h.noStackSize fun hm => hn ((hp.map Prod.fst).mem_iff.mp hm)

theorem IsField.text_of_name (h : IsField f) (hkey : f.1 = "name") : ∃ s, f.2 = .text s := by
  cases h with
  | name s _ hv => exact ⟨s, hv⟩
  | stackSize size hstack => exact absurd (hkey.symm.trans hstack) (by decide)

theorem IsField.size_of_stackSize (h : IsField f) (hkey : f.1 = "stack_size") :
    ∃ size, IsStackSize f.2 size := by
  cases h with
  | name s hname => exact absurd (hname.symm.trans hkey) (by decide)
  | stackSize size _ hv => exact ⟨size, hv⟩

theorem IsLoadable.mem_keys_name (h : IsLoadable fields) :
    "name" ∈ fields.map Prod.fst ↔ ∃ s, ("name", .text s) ∈ fields := by
  constructor
  · intro hm
    obtain ⟨⟨key, v⟩, hf, rfl⟩ := List.mem_map.mp hm
    obtain ⟨s, rfl⟩ := (h.isField _ hf).text_of_name rfl
    exact ⟨s, hf⟩
  · rintro ⟨s, hs⟩
    exact List.mem_map_of_mem hs

theorem IsLoadable.mem_keys_stackSize (h : IsLoadable fields) :
    "stack_size" ∈ fields.map Prod.fst ↔
      ∃ v size, ("stack_size", v) ∈ fields ∧ IsStackSize v size := by
  constructor
  · intro hm
    obtain ⟨⟨key, v⟩, hf, rfl⟩ := List.mem_map.mp hm
    obtain ⟨size, hsize⟩ := (h.isField _ hf).size_of_stackSize rfl
    exact ⟨v, size, hf, hsize⟩
  · rintro ⟨v, size, hv, -⟩
    exact List.mem_map_of_mem hv

theorem HasGiven.unique (hl : IsLoadable fields) (h : spec.HasGiven fields)
    (h' : spec'.HasGiven fields) : spec = spec' := by
  have hname : spec.name = spec'.name := by
    by_cases hm : "name" ∈ fields.map Prod.fst
    · obtain ⟨s, hs⟩ := hl.mem_keys_name.mp hm
      rw [h.name s hs, h'.name s hs]
    · rw [h.noName hm, h'.noName hm]
  have hstack : spec.stackSize = spec'.stackSize := by
    by_cases hm : "stack_size" ∈ fields.map Prod.fst
    · obtain ⟨v, size, hv, hsize⟩ := hl.mem_keys_stackSize.mp hm
      rw [h.stackSize v size hv hsize, h'.stackSize v size hv hsize]
    · rw [h.noStackSize hm, h'.noStackSize hm]
  cases spec
  cases spec'
  congr

/-! ### Faults -/

theorem Fault.unique (h : Fault earlier f e) (h' : Fault earlier f e') : e = e' := by
  cases h with
  | unknown hname hstack =>
    cases h' with
    | unknown => rfl
    | repeated hknown => exact absurd hknown (not_or.mpr ⟨hname, hstack⟩)
    | name hkey => exact absurd hkey hname
    | stackSize _ hkey => exact absurd hkey hstack
  | repeated hknown hm =>
    cases h' with
    | unknown hname hstack => exact absurd hknown (not_or.mpr ⟨hname, hstack⟩)
    | repeated => rfl
    | name _ hnew => exact absurd hm hnew
    | stackSize _ _ hnew => exact absurd hm hnew
  | name hkey hnew hv =>
    cases h' with
    | unknown hname => exact absurd hkey hname
    | repeated _ hm => exact absurd hm hnew
    | name => rfl
    | stackSize _ hstack => exact absurd (hkey.symm.trans hstack) (by decide)
  | stackSize _ hkey hnew hv =>
    cases h' with
    | unknown _ hstack => exact absurd hkey hstack
    | repeated _ hm => exact absurd hm hnew
    | name hname => exact absurd (hname.symm.trans hkey) (by decide)
    | stackSize _ _ _ hv' => exact hv.unique hv'

theorem Fault.not_isLoadable (h : Fault (before.map Prod.fst) f e) :
    ¬ IsLoadable (before ++ f :: after) := by
  intro hl
  have hf := hl.isField f (List.mem_append_right _ List.mem_cons_self)
  cases h with
  | unknown hname hstack => exact absurd hf.known (not_or.mpr ⟨hname, hstack⟩)
  | repeated hknown hm =>
    have hdistinct := hl.distinct
    rw [List.map_append, List.map_cons] at hdistinct
    exact (List.nodup_append.mp hdistinct).2.2 f.1 hm f.1 List.mem_cons_self rfl
  | name hkey hnew hv =>
    obtain ⟨s, hs⟩ := hf.text_of_name hkey
    exact hv s hs
  | stackSize _ hkey hnew hv =>
    obtain ⟨size, hsize⟩ := hf.size_of_stackSize hkey
    exact hv.not_isStackSize hsize

theorem FirstFault.not_isLoadable (h : FirstFault fields e) : ¬ IsLoadable fields := by
  obtain ⟨before, f, after, rfl, -, hf⟩ := h
  exact hf.not_isLoadable

/-- Loadable entries at the head of a list do not reach beyond its first fault. -/
theorem Fault.length_le {before' after' : List (String × Value)}
    (h : Fault (before.map Prod.fst) f e) (hl : IsLoadable before')
    (heq : before ++ f :: after = before' ++ after') : before'.length ≤ before.length := by
  rcases List.append_eq_append_iff.mp heq with ⟨mid, rfl, hmid⟩ | ⟨mid, rfl, -⟩
  · cases mid with
    | nil => exact Nat.le_of_eq (congrArg List.length (List.append_nil before))
    | cons g rest =>
      obtain ⟨rfl, -⟩ := List.cons.inj hmid
      exact absurd hl h.not_isLoadable
  · rw [List.length_append]
    exact Nat.le_add_right ..

theorem FirstFault.unique (h : FirstFault fields e) (h' : FirstFault fields e') : e = e' := by
  obtain ⟨before, f, after, rfl, hl, hf⟩ := h
  obtain ⟨before', f', after', heq, hl', hf'⟩ := h'
  have hlen : before.length = before'.length :=
    Nat.le_antisymm (hf'.length_le hl heq.symm) (hf.length_le hl' heq)
  obtain ⟨rfl, hrest⟩ := List.append_inj heq hlen
  obtain ⟨rfl, -⟩ := List.cons.inj hrest
  exact hf.unique hf'

/-! ### The draft -/

namespace Draft

variable {p : Draft}

/-- The draft holds what loadable entries have given. -/
structure Holds (p : Draft) (fields : List (String × Value)) : Prop where
  loadable : IsLoadable fields
  name : ∀ s, p.name = some s ↔ ("name", .text s) ∈ fields
  stackSize : ∀ size, p.stackSize = some size ↔
    ∃ v, ("stack_size", v) ∈ fields ∧ IsStackSize v size

theorem holds_empty : ({} : Draft).Holds [] where
  loadable := ⟨nofun, List.nodup_nil⟩
  name s := by simp
  stackSize size := by simp

theorem Holds.isSome_name (h : p.Holds fields) :
    p.name.isSome ↔ "name" ∈ fields.map Prod.fst := by
  rw [Option.isSome_iff_exists, h.loadable.mem_keys_name]
  exact exists_congr h.name

theorem Holds.isSome_stackSize (h : p.Holds fields) :
    p.stackSize.isSome ↔ "stack_size" ∈ fields.map Prod.fst := by
  rw [Option.isSome_iff_exists, h.loadable.mem_keys_stackSize, exists_comm]
  exact exists_congr h.stackSize

theorem read_name (p : Draft) (v : Value) :
    p.read "name" v = if p.name.isSome then .error (.duplicateField "name")
      else (loadName v).map fun s => { p with name := some s } := by
  simp only [Draft.read, if_true]
  cases loadName v <;> rfl

theorem read_stackSize (p : Draft) (v : Value) :
    p.read "stack_size" v = if p.stackSize.isSome then .error (.duplicateField "stack_size")
      else (loadStackSize v).map fun size => { p with stackSize := some size } := by
  simp only [Draft.read, if_neg (show "stack_size" ≠ "name" by decide), if_true]
  cases loadStackSize v <;> rfl

theorem read_unknown {key : String} (hname : key ≠ "name") (hstack : key ≠ "stack_size") :
    p.read key v = .error (.unknownField key ["name", "stack_size"]) :=
  (if_neg hname).trans (if_neg hstack)

theorem Holds.withName (h : p.Holds fields) (hnew : "name" ∉ fields.map Prod.fst) (s : String) :
    { p with name := some s }.Holds (fields ++ [("name", Value.text s)]) where
  loadable := h.loadable.concat (.name s rfl rfl) hnew
  name t := by
    have hnot : ("name", Value.text t) ∉ fields := fun hm => hnew (List.mem_map_of_mem hm)
    simp [hnot, eq_comm]
  stackSize size := by simp [h.stackSize]

theorem Holds.withStackSize (h : p.Holds fields) (hnew : "stack_size" ∉ fields.map Prod.fst)
    (hv : IsStackSize v size) :
    { p with stackSize := some size }.Holds (fields ++ [("stack_size", v)]) where
  loadable := h.loadable.concat (.stackSize size rfl hv) hnew
  name s := by simp [h.name]
  stackSize other := by
    have hnot : ∀ w, ("stack_size", w) ∉ fields := fun w hm => hnew (List.mem_map_of_mem hm)
    constructor
    · intro hs
      exact ⟨v, by simp, Option.some.inj hs ▸ hv⟩
    · rintro ⟨w, hw, hother⟩
      obtain rfl : w = v := by simpa [hnot] using hw
      exact congrArg some (hv.unique hother)

/-- An entry is read into the draft, or has a fault, and then that is reported. -/
theorem Holds.read (h : p.Holds fields) (f : String × Value) :
    (∃ q, p.read f.1 f.2 = .ok q ∧ q.Holds (fields ++ [f])) ∨
      ∃ e, p.read f.1 f.2 = .error e ∧ Fault (fields.map Prod.fst) f e := by
  obtain ⟨key, v⟩ := f
  by_cases hname : key = "name"
  · subst hname
    rw [read_name]
    by_cases hsome : p.name.isSome
    · exact .inr ⟨_, if_pos hsome, .repeated (.inl rfl) (h.isSome_name.mp hsome)⟩
    · have hnew := mt h.isSome_name.mpr hsome
      rw [if_neg hsome]
      by_cases hv : ∃ s, v = .text s
      · obtain ⟨s, rfl⟩ := hv
        exact .inl ⟨_, rfl, h.withName hnew s⟩
      · have hnot : ∀ s, v ≠ .text s := fun s hs => hv ⟨s, hs⟩
        rw [loadName_eq_error hnot]
        exact .inr ⟨_, rfl, .name rfl hnew hnot⟩
  · by_cases hstack : key = "stack_size"
    · subst hstack
      rw [read_stackSize]
      by_cases hsome : p.stackSize.isSome
      · exact .inr ⟨_, if_pos hsome, .repeated (.inr rfl) (h.isSome_stackSize.mp hsome)⟩
      · have hnew := mt h.isSome_stackSize.mpr hsome
        rw [if_neg hsome]
        cases hv : loadStackSize v with
        | ok size => exact .inl ⟨_, rfl, h.withStackSize hnew (loadStackSize_eq_ok_iff.mp hv)⟩
        | error e => exact .inr ⟨e, rfl, .stackSize e rfl hnew (loadStackSize_eq_error_iff.mp hv)⟩
    · exact .inr ⟨_, read_unknown hname hstack, .unknown hname hstack⟩

/-- Entries are read into the draft, or one of them is the first that has a fault. -/
theorem Holds.readAll (h : p.Holds before) (fields : List (String × Value)) :
    (∃ q, p.readAll fields = .ok q ∧ q.Holds (before ++ fields)) ∨
      ∃ e, p.readAll fields = .error e ∧ FirstFault (before ++ fields) e := by
  induction fields generalizing p before with
  | nil => exact .inl ⟨p, rfl, by rwa [List.append_nil]⟩
  | cons f rest ih =>
    rcases h.read f with ⟨q, hq, hholds⟩ | ⟨e, he, hfault⟩
    · have hrest := ih hholds
      rw [List.append_assoc, List.singleton_append] at hrest
      simpa only [Draft.readAll, hq, bind, Except.bind] using hrest
    · refine .inr ⟨e, ?_, before, f, rest, rfl, h.loadable, hfault⟩
      simp only [Draft.readAll, he, bind, Except.bind]

theorem Holds.complete (h : p.Holds fields) : p.complete.HasGiven fields where
  name s hs := by simp [Draft.complete, (h.name s).mpr hs]
  noName hn := by
    have hnone : p.name = none := Option.not_isSome_iff_eq_none.mp (mt h.isSome_name.mp hn)
    simp [Draft.complete, hnone]
  stackSize v size hv hsize := by simp [Draft.complete, (h.stackSize size).mpr ⟨v, hv, hsize⟩]
  noStackSize hn := by
    have hnone : p.stackSize = none :=
      Option.not_isSome_iff_eq_none.mp (mt h.isSome_stackSize.mp hn)
    simp [Draft.complete, hnone]

end Draft

/-! ### Loading -/

theorem loadFields_cases (fields : List (String × Value)) :
    (∃ spec, loadFields fields = .ok spec ∧ IsLoadable fields ∧ spec.HasGiven fields) ∨
      ∃ e, loadFields fields = .error e ∧ FirstFault fields e := by
  rcases Draft.holds_empty.readAll fields with ⟨p, hp, hholds⟩ | ⟨e, he, hfault⟩
  · refine .inl ⟨p.complete, ?_, hholds.loadable, hholds.complete⟩
    simp only [loadFields, hp, bind, Except.bind]
    rfl
  · refine .inr ⟨e, ?_, hfault⟩
    simp only [loadFields, he, bind, Except.bind]

theorem loadFields_eq_ok_iff :
    loadFields fields = .ok spec ↔ IsLoadable fields ∧ spec.HasGiven fields := by
  rcases loadFields_cases fields with ⟨spec', hok, hl, hgiven⟩ | ⟨e, he, hfault⟩
  · rw [hok, Except.ok.injEq]
    constructor
    · rintro rfl
      exact ⟨hl, hgiven⟩
    · exact fun h => hgiven.unique hl h.2
  · rw [he]
    exact iff_of_false nofun fun h => hfault.not_isLoadable h.1

theorem loadFields_eq_error_iff : loadFields fields = .error e ↔ FirstFault fields e := by
  rcases loadFields_cases fields with ⟨spec, hok, hl, -⟩ | ⟨e', he, hfault⟩
  · rw [hok]
    exact iff_of_false nofun fun h => h.not_isLoadable hl
  · rw [he, Except.error.injEq]
    constructor
    · rintro rfl
      exact hfault
    · exact hfault.unique

theorem exists_loadFields_iff : (∃ spec, loadFields fields = .ok spec) ↔ IsLoadable fields := by
  constructor
  · rintro ⟨spec, h⟩
    exact (loadFields_eq_ok_iff.mp h).1
  · intro hl
    rcases loadFields_cases fields with ⟨spec, hok, -⟩ | ⟨e, -, hfault⟩
    · exact ⟨spec, hok⟩
    · exact absurd hl hfault.not_isLoadable

/-- The order of the entries does not matter for what is loaded. -/
theorem loadFields_perm (hp : fields.Perm fields') :
    loadFields fields = .ok spec ↔ loadFields fields' = .ok spec := by
  rw [loadFields_eq_ok_iff, loadFields_eq_ok_iff]
  exact ⟨fun h => ⟨h.1.perm hp, h.2.perm hp⟩, fun h => ⟨h.1.perm hp.symm, h.2.perm hp.symm⟩⟩

theorem refuses_iff : (∃ e, loadFields fields = .error e) ↔ ¬ IsLoadable fields := by
  rw [← exists_loadFields_iff]
  cases loadFields fields <;> simp

theorem loadItems_eq_ok_iff {items : List Value} :
    loadItems items = .ok spec ↔ IsListed items spec := by
  constructor
  · intro h
    match items with
    | [] => exact Except.ok.inj h ▸ .nothing
    | [v] =>
      cases hv : loadName v with
      | error e => simp [loadItems, hv, bind, Except.bind] at h
      | ok s =>
        obtain rfl := loadName_eq_ok_iff.mp hv
        exact Except.ok.inj h ▸ .name s
    | v :: w :: rest =>
      cases hv : loadName v with
      | error e => simp [loadItems, hv, bind, Except.bind] at h
      | ok s =>
        obtain rfl := loadName_eq_ok_iff.mp hv
        cases hw : loadStackSize w with
        | error e => simp [loadItems, loadName, hw, bind, Except.bind] at h
        | ok size =>
          cases rest with
          | nil =>
            simp only [loadItems, loadName, hw, bind, Except.bind, List.isEmpty_nil, if_true,
              Except.ok.injEq] at h
            exact h ▸ .both s (loadStackSize_eq_ok_iff.mp hw)
          | cons u rest => simp [loadItems, loadName, hw, bind, Except.bind] at h
  · intro h
    cases h with
    | nothing | name => rfl
    | both s hw =>
      simp [loadItems, loadName, loadStackSize_eq_ok_iff.mpr hw, bind, Except.bind]

/-! ### Saving -/

theorem load_eq_error (hrecord : ∀ fields, v ≠ .record fields) (hlist : ∀ items, v ≠ .list items) :
    load v = .error (.wrongKind v "struct WorkerSpec") := by
  cases v with
  | record fields => exact absurd rfl (hrecord fields)
  | list items => exact absurd rfl (hlist items)
  | _ => rfl

theorem save_eq (spec : WorkerSpec) : spec.save = .record spec.saveFields := by
  have hlt : ¬ "stack_size" < "name" := by decide
  simp [save, Value.ofFields, saveFields, Value.insertField, hlt]

theorem isStackSize_save (size : Option UInt64) :
    IsStackSize (size.elim .null fun n => .int n.toNat) size := by
  cases size with
  | none => exact .unset
  | some n => exact .bytes n

theorem loadFields_saveFields (spec : WorkerSpec) : loadFields spec.saveFields = .ok spec := by
  have hsize := isStackSize_save spec.stackSize
  have hdistinct : ["name", "stack_size"].Nodup := by decide
  refine loadFields_eq_ok_iff.mpr ⟨⟨?_, hdistinct⟩, ?_⟩
  · rintro f (_ | ⟨_, _ | ⟨_, hf⟩⟩)
    · exact .name spec.name rfl rfl
    · exact .stackSize spec.stackSize rfl hsize
    · cases hf
  · refine ⟨fun s hs => ?_, fun hn => ?_, fun v size hv hother => ?_, fun hn => ?_⟩
    · simpa [saveFields, eq_comm] using hs
    · simp [saveFields] at hn
    · obtain rfl : v = _ := by simpa [saveFields] using hv
      exact hsize.unique hother
    · simp [saveFields] at hn

theorem load_save (spec : WorkerSpec) : load spec.save = .ok spec := by
  rw [save_eq]
  exact loadFields_saveFields spec

theorem save_injective : Function.Injective save := fun spec spec' h =>
  Except.ok.inj ((load_save spec).symm.trans ((congrArg load h).trans (load_save spec')))

/-! ### Building -/

theorem withStack_eq_ok_iff {bytes : UInt64} :
    spec.withStack bytes = .ok spec' ↔
      bytes ≠ 0 ∧ spec' = { spec with stackSize := some bytes } := by
  rw [← UInt64.pos_iff_ne_zero, withStack]
  by_cases hb : 0 < bytes
  · rw [if_pos hb, Except.ok.injEq, and_iff_right hb, eq_comm]
  · rw [if_neg hb]
    exact iff_of_false nofun fun h => hb h.1

theorem isBuilt_iff : IsBuilt spec ↔ spec.stackSize ≠ some 0 := by
  constructor
  · intro h
    induction h with
    | default | named => exact nofun
    | withStack bytes _ hstack =>
      obtain ⟨hb, rfl⟩ := withStack_eq_ok_iff.mp hstack
      exact fun h => hb (Option.some.inj h)
  · intro h
    obtain ⟨name, stackSize⟩ := spec
    cases stackSize with
    | none => exact .named name
    | some bytes =>
      refine .withStack bytes (.named name) (withStack_eq_ok_iff.mpr ⟨?_, rfl⟩)
      exact fun hb => h (congrArg some hb)

/-- What a record loads as a specification: just the lists of entries of the known fields, each once
and with a value of its kind. What is loaded has what they give and the default of what they do not;
of other lists the first fault is reported, and a repeated field is one whatever its value. So the
order of the entries decides nothing but which fault that is. A list of values is loaded by
position, and nothing else is loaded at all. Every specification is loaded from what it was saved
as, which tells it from all others. Those that can be loaded are those that can be built, and those
with a stack of no bytes, which cannot. -/
theorem loads_just_its_grammar :
    (∀ fields, (∃ spec, load (.record fields) = .ok spec) ↔ IsLoadable fields) ∧
    (∀ fields spec, load (.record fields) = .ok spec ↔
      IsLoadable fields ∧ spec.HasGiven fields) ∧
    (∀ fields e, load (.record fields) = .error e ↔ FirstFault fields e) ∧
    (∀ fields fields', fields.Perm fields' →
      (∀ spec, load (.record fields) = .ok spec ↔ load (.record fields') = .ok spec) ∧
      ((∃ e, load (.record fields) = .error e) ↔ ∃ e, load (.record fields') = .error e)) ∧
    (∀ items spec, load (.list items) = .ok spec ↔ IsListed items spec) ∧
    (∀ v, (∀ fields, v ≠ .record fields) → (∀ items, v ≠ .list items) →
      load v = .error (.wrongKind v "struct WorkerSpec")) ∧
    (∀ spec, load spec.save = .ok spec ∧ load (.record spec.saveFields) = .ok spec) ∧
    (∀ spec spec' : WorkerSpec, spec = spec' ↔ spec.save = spec'.save) ∧
    (∀ spec, (∃ v, load v = .ok spec) ↔ IsBuilt spec ∨ spec.stackSize = some 0) ∧
    ∀ spec, IsBuilt spec ↔ spec.stackSize ≠ some 0 := by
  refine ⟨fun _ => exists_loadFields_iff, fun _ _ => loadFields_eq_ok_iff,
    fun _ _ => loadFields_eq_error_iff, fun _ _ hp => ⟨fun _ => loadFields_perm hp, ?_⟩,
    fun _ _ => loadItems_eq_ok_iff, fun _ => load_eq_error,
    fun spec => ⟨load_save spec, loadFields_saveFields spec⟩,
    fun _ _ => save_injective.eq_iff.symm, fun spec => ?_, fun _ => isBuilt_iff⟩
  · exact refuses_iff.trans ((not_congr ⟨(·.perm hp), (·.perm hp.symm)⟩).trans refuses_iff.symm)
  · rw [isBuilt_iff]
    exact iff_of_true ⟨spec.save, load_save spec⟩ (Classical.em _).symm

/-- The two fields in either order; and a list with two faults, of which the first is that of a
field given twice. -/
theorem loads_just_its_grammar_in_either_order :
    [("name", Value.text "ui"), ("stack_size", .int 65536)].Perm
      [("stack_size", .int 65536), ("name", .text "ui")] ∧
    load (.record [("stack_size", .int 65536), ("name", .text "ui")]) = .ok ⟨"ui", some 65536⟩ ∧
    load (.record [("name", .text "ui"), ("name", .null), ("priority", .int 3)]) =
      .error (.duplicateField "name") ∧
    load .null = .error (.wrongKind .null "struct WorkerSpec") := by
  obtain ⟨-, -, hfault, hperm, -, hkind, hsaved, -⟩ := loads_just_its_grammar
  refine ⟨.swap .., ?_, (hfault _ _).mpr ?_, hkind .null nofun nofun⟩
  · exact ((hperm _ _ (.swap ..)).1 _).mp (hsaved ⟨"ui", some 65536⟩).2
  · refine ⟨[("name", .text "ui")], ("name", .null), _, rfl, ⟨?_, List.nodup_singleton _⟩,
      .repeated (.inl rfl) (.head _)⟩
    exact List.forall_mem_singleton.mpr (.name "ui" rfl rfl)

end CrossCall.WorkerSpec
