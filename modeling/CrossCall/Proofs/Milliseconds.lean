import CrossCall.WaitBound
import Mathlib.Order.Bounds.Basic

/-! Bounds told in milliseconds. Whole milliseconds tell a bound without limit and any span of so
many of them as 63 bits hold. Every other bound is cut, when it is saved, to the longest one that
can be told and is no longer. All else about saving and loading follows from that. -/

namespace CrossCall

namespace Span

variable {seconds nanos : Nat} {span : Span}

theorem eq_of_nanos {s t : Span} (h : s.nanos = t.nanos) : s = t := by
  cases s
  cases t
  congr

/-- Spans are the pairs of seconds in 64 bits and nanoseconds short of another second. -/
theorem ofParts?_eq_some_iff :
    ofParts? seconds nanos = some span ↔ FitsUnsigned seconds ∧ nanos < 1_000_000_000 ∧
      span.seconds = seconds ∧ span.subsecond = nanos := by
  constructor
  · intro h
    obtain ⟨hfits, h⟩ := Option.dite_none_right_eq_some.mp h
    obtain rfl := Option.some.inj h
    refine ⟨hfits.1, hfits.2, ?_, ?_⟩
    · show (seconds * 1_000_000_000 + nanos) / 1_000_000_000 = seconds
      omega
    · show (seconds * 1_000_000_000 + nanos) % 1_000_000_000 = nanos
      omega
  · rintro ⟨hseconds, hnanos, rfl, rfl⟩
    refine (dif_pos ⟨hseconds, hnanos⟩).trans (congrArg some (eq_of_nanos ?_))
    exact Nat.div_add_mod' span.nanos 1_000_000_000

theorem millis_eq (span : Span) :
    span.millis = span.seconds * 1_000 + span.subsecond / 1_000_000 := by
  rw [millis, seconds, subsecond]
  omega

theorem millis_lt (span : Span) : span.millis < 18_446_744_073_709_551_616_000 := by
  have hlt := span.nanos_lt
  rw [millis]
  omega

end Span

namespace WaitBound

variable {b c : WaitBound} {span : Span}

/-! ### Longer and shorter bounds -/

/-- A wait within the first bound lasts no longer than one within the second may. -/
protected def le : WaitBound → WaitBound → Prop
  | _, .infinite => True
  | .infinite, .within _ => False
  | .within s, .within t => s.nanos ≤ t.nanos

instance : PartialOrder WaitBound where
  le := WaitBound.le
  le_refl b := by
    cases b with
    | infinite => trivial
    | within s => exact Nat.le_refl s.nanos
  le_trans a b c hab hbc := by
    cases c with
    | infinite => trivial
    | within u =>
      cases b with
      | infinite => cases hbc
      | within t =>
        cases a with
        | infinite => cases hab
        | within s => exact Nat.le_trans hab hbc
  le_antisymm a b hab hba := by
    cases a with
    | infinite =>
      cases b with
      | infinite => rfl
      | within t => cases hab
    | within s =>
      cases b with
      | infinite => cases hba
      | within t => exact congrArg within (Span.eq_of_nanos (Nat.le_antisymm hab hba))

theorem le_infinite (b : WaitBound) : b ≤ infinite := trivial

theorem not_infinite_le (s : Span) : ¬ infinite ≤ within s := nofun

theorem within_le_within {s t : Span} : within s ≤ within t ↔ s.nanos ≤ t.nanos := .rfl

/-- Whole milliseconds tell the bound, and no more of them than 63 bits hold. -/
def IsWhole : WaitBound → Prop
  | .infinite => True
  | .within span => ∃ n : Nat, n ≤ 9_223_372_036_854_775_807 ∧ span.nanos = n * 1_000_000

theorem isInfinite_iff : b.isInfinite ↔ b = infinite := by
  cases b <;> simp [isInfinite]

/-! ### From milliseconds and to them -/

theorem ofMillis_of_neg {n : Int64} (h : n.toInt < 0) : ofMillis n = infinite := if_pos h

theorem exists_ofMillis {n : Int64} (h : 0 ≤ n.toInt) :
    ∃ span : Span, ofMillis n = within span ∧ span.nanos = n.toInt.toNat * 1_000_000 :=
  ⟨_, if_neg (Int.not_lt.mpr h), rfl⟩

theorem ofMillis_eq_infinite_iff {n : Int64} : ofMillis n = infinite ↔ n.toInt < 0 := by
  refine ⟨fun h => Int.not_le.mp fun hn => ?_, ofMillis_of_neg⟩
  obtain ⟨span, hspan, -⟩ := exists_ofMillis hn
  rw [h] at hspan
  cases hspan

theorem toInt_toMillis_infinite : infinite.toMillis.toInt = -1 := by decide

theorem toMillis_within (span : Span) : (within span).toMillis =
    if FitsSigned span.millis then Int64.ofInt span.millis else Int64.maxValue := rfl

theorem toInt_toMillis_within (span : Span) :
    (within span).toMillis.toInt = (min span.millis 9_223_372_036_854_775_807 : Nat) := by
  have hmax : Int64.maxValue.toInt = 9_223_372_036_854_775_807 := by decide
  by_cases h : FitsSigned span.millis
  · rw [toMillis_within, if_pos h, Int64.toInt_ofInt_of_le (by omega) (by omega)]
    omega
  · rw [toMillis_within, if_neg h, hmax]
    omega

theorem toInt_toMillis_eq_iff : b.toMillis.toInt = -1 ↔ b = infinite := by
  cases b with
  | infinite => exact iff_of_true toInt_toMillis_infinite rfl
  | within span =>
    rw [toInt_toMillis_within]
    exact iff_of_false (by omega) nofun

theorem toInt_toMillis_ofMillis (n : Int64) : (ofMillis n).toMillis.toInt = max n.toInt (-1) := by
  rcases Int.lt_or_le n.toInt 0 with hneg | hn
  · rw [ofMillis_of_neg hneg, toInt_toMillis_infinite]
    omega
  · have hlt := Int64.toInt_lt n
    obtain ⟨span, hspan, hnanos⟩ := exists_ofMillis hn
    rw [hspan, toInt_toMillis_within, Span.millis, hnanos]
    omega

/-! ### What is left of a bound -/

/-- What is left of a bound that was told in milliseconds. -/
def told (b : WaitBound) : WaitBound := ofMillis b.toMillis

theorem told_infinite : infinite.told = infinite := ofMillis_of_neg (by decide)

theorem exists_told (span : Span) : ∃ cut : Span, (within span).told = within cut ∧
    cut.nanos = min span.millis 9_223_372_036_854_775_807 * 1_000_000 := by
  have hmillis := toInt_toMillis_within span
  obtain ⟨cut, hcut, hnanos⟩ := exists_ofMillis (n := (within span).toMillis) (by omega)
  exact ⟨cut, hcut, by rw [hnanos, hmillis, Int.toNat_natCast]⟩

theorem told_eq_infinite_iff : b.told = infinite ↔ b = infinite := by
  cases b with
  | infinite => exact iff_of_true told_infinite rfl
  | within span =>
    obtain ⟨cut, hcut, -⟩ := exists_told span
    rw [hcut]
    exact iff_of_false nofun nofun

/-- Of the bounds that can be told in whole milliseconds and are no longer, the longest is left. -/
theorem isGreatest_told (b : WaitBound) : IsGreatest {d | d.IsWhole ∧ d ≤ b} b.told := by
  cases b with
  | infinite =>
    rw [told_infinite]
    exact ⟨⟨trivial, le_refl _⟩, fun d _ => le_infinite d⟩
  | within span =>
    obtain ⟨cut, hcut, hnanos⟩ := exists_told span
    rw [hcut]
    rw [Span.millis] at hnanos
    refine ⟨⟨⟨_, Nat.min_le_right .., hnanos⟩, within_le_within.mpr (by omega)⟩, ?_⟩
    rintro d ⟨hwhole, hle⟩
    cases d with
    | infinite => exact absurd hle (not_infinite_le span)
    | within s =>
      obtain ⟨n, hn, hs⟩ := hwhole
      rw [within_le_within] at hle ⊢
      omega

theorem isWhole_told (b : WaitBound) : b.told.IsWhole := (isGreatest_told b).1.1

theorem told_le (b : WaitBound) : b.told ≤ b := (isGreatest_told b).1.2

theorem told_eq_self_iff : b.told = b ↔ b.IsWhole := by
  refine ⟨fun h => h ▸ isWhole_told b, fun h => le_antisymm (told_le b) ?_⟩
  exact (isGreatest_told b).2 ⟨h, le_refl b⟩

theorem monotone_told : Monotone told := fun b c h =>
  (isGreatest_told c).2 ⟨isWhole_told b, (told_le b).trans h⟩

/-! ### The outside form -/

theorem load_int (n : Int64) : load (.int n.toInt) = .ok (ofMillis n) := by
  have hle := Int64.le_toInt n
  have hlt := Int64.toInt_lt n
  rw [load, if_pos ⟨by omega, by omega⟩, Int64.ofInt_toInt]

theorem load_eq_ok_iff {v : Value} :
    load v = .ok b ↔ ∃ n : Int64, v = .int n.toInt ∧ b = ofMillis n := by
  constructor
  · intro h
    cases v with
    | int n =>
      rw [load] at h
      split at h
      · next hfits =>
        refine ⟨Int64.ofInt n, ?_, (Except.ok.inj h).symm⟩
        rw [Int64.toInt_ofInt_of_le (by omega) (by omega)]
      · cases h
    | _ => cases h
  · rintro ⟨n, rfl, rfl⟩
    exact load_int n

theorem load_save (b : WaitBound) : load b.save = .ok b.told := load_int b.toMillis

theorem load_save_eq_self_iff : load b.save = .ok b ↔ b.IsWhole := by
  rw [load_save, Except.ok.injEq, told_eq_self_iff]

/-- What milliseconds tell of a bound. From any integer of 64 bits a bound is made that is told by
that integer again, or by -1 where it is negative; -1 tells a bound without limit and nothing else.
A span, given by its seconds and the nanoseconds beyond them, is told by its whole milliseconds,
which 128 bits hold, or by the largest integer of 64 bits. Loading accepts these integers and
nothing else. A bound that was saved is loaded as the longest one that whole milliseconds tell and
that is no longer, so as itself just if they tell it. It stays what it is then, has a limit just if
it had one before, and of two bounds the longer is not loaded as the shorter. -/
theorem told_in_whole_milliseconds :
    (∀ n : Int64, (ofMillis n).toMillis.toInt = max n.toInt (-1) ∧
      ((ofMillis n).isInfinite ↔ n.toInt < 0)) ∧
    (∀ b : WaitBound, b.toMillis.toInt = -1 ↔ b.isInfinite) ∧
    (∀ seconds nanos span, Span.ofParts? seconds nanos = some span ↔ FitsUnsigned seconds ∧
      nanos < 1_000_000_000 ∧ span.seconds = seconds ∧ span.subsecond = nanos) ∧
    (∀ span : Span,
      span.seconds * 1_000 + span.subsecond / 1_000_000 <
        340_282_366_920_938_463_463_374_607_431_768_211_456 ∧
      (within span).toMillis.toInt = (min (span.seconds * 1_000 + span.subsecond / 1_000_000)
        9_223_372_036_854_775_807 : Nat)) ∧
    (∀ v b, load v = .ok b ↔ ∃ n : Int64, v = .int n.toInt ∧ b = ofMillis n) ∧
    (∀ b, load b.save = .ok b.told ∧ (load b.save = .ok b ↔ b.IsWhole) ∧
      IsGreatest {d | d.IsWhole ∧ d ≤ b} b.told ∧ load b.told.save = .ok b.told ∧
      (b.told.isInfinite ↔ b.isInfinite)) ∧
    Monotone told := by
  refine ⟨fun n => ⟨toInt_toMillis_ofMillis n, ?_⟩, fun b => ?_,
    fun _ _ _ => Span.ofParts?_eq_some_iff, fun span => ?_, fun _ _ => load_eq_ok_iff,
    fun b => ⟨load_save b, load_save_eq_self_iff, isGreatest_told b, ?_, ?_⟩, monotone_told⟩
  · rw [isInfinite_iff, ofMillis_eq_infinite_iff]
  · rw [isInfinite_iff, toInt_toMillis_eq_iff]
  · have hlt := span.millis_lt
    rw [← span.millis_eq]
    exact ⟨by omega, toInt_toMillis_within span⟩
  · exact load_save_eq_self_iff.mpr (isWhole_told b)
  · rw [isInfinite_iff, isInfinite_iff, told_eq_infinite_iff]

/-- Half a millisecond is left as a bound of nothing. -/
example : (within ⟨500_000, by decide⟩).told = within .zero := rfl

end WaitBound
end CrossCall
