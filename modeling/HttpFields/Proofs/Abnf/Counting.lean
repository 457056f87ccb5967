import HttpFields.Abnf.Counting
import HttpFields.Proofs.Abnf.Repetition

/-!
# `HttpFields.Proofs.Abnf.Counting` — greedy matching is matching by counting down

The matcher ends a repetition at an empty match and needs no greatest number. The counters of
`HttpFields.Abnf.Counting` do neither, and yet give the same match. What makes the two agree is that a rule which
matches nothing once matches nothing again (`countDown?_of_taken_nil`), and that a repetition cannot go on for more
rounds than the text has characters.

* `parse?_repetition_eq_countDown?` — one repetition, for any number that stands for its limit.
* `parse?_eq_countParse?` — all rules.
-/

namespace HttpFields.Rule

/-! ## The counters -/

/-- **An empty match is repeated for nothing.** However many matches are still asked for, they take nothing. -/
theorem countDown?_of_taken_nil {item : Text → Option Match} {s : Text} (h : item s = some (.empty s)) :
    ∀ max min, countDown? item max min s = some (.empty s) := by
  intro max
  induction max with
  | zero => exact fun min => countDown?_zero item min s
  | succ max ih =>
    intro min
    rw [countDown?_succ, h]
    show (countDown? item max (min - 1) s).map (Match.prepend []) = some (Match.empty s)
    rw [ih (min - 1)]
    rfl

/-- Two matchers that agree on all texts up to a length give the same count on them. -/
theorem countDown?_congr {item item' : Text → Option Match} {length : Nat}
    (hwhole : ∀ s m, item s = some m → m.whole = s)
    (h : ∀ s : Text, s.length ≤ length → item s = item' s) :
    ∀ (max min : Nat) (s : Text), s.length ≤ length → countDown? item max min s = countDown? item' max min s := by
  intro max
  induction max with
  | zero => intro min s _; rfl
  | succ max ih =>
    intro min s hs
    rw [countDown?_succ, countDown?_succ, ← h s hs]
    cases hm : item s with
    | none => rfl
    | some m =>
      have hrest : m.rest.length ≤ length := Nat.le_trans (Match.length_rest_le (hwhole s m hm)) hs
      show (countDown? item max (min - 1) m.rest).map _ = (countDown? item' max (min - 1) m.rest).map _
      rw [ih (min - 1) m.rest hrest]

/-- **Counting in two goes.** The first `a` of a number of matches may be counted on their own, and the others behind
    them. -/
theorem countDown?_add (item : Text → Option Match) (a min max : Nat) (s : Text) :
    countDown? item (a + max) (a + min) s =
      (countDown? item a a s).bind fun m => (countDown? item max min m.rest).map (.prepend m.taken) := by
  induction a generalizing s with
  | zero =>
    rw [Nat.zero_add, Nat.zero_add, countDown?_zero, Option.bind_some]
    exact (Match.map_prepend_nil _).symm
  | succ a ih =>
    have hmax : a + 1 + max = a + max + 1 := by omega
    have hmin : a + 1 + min - 1 = a + min := by omega
    rw [hmax, countDown?_succ, countDown?_succ, hmin, Nat.add_sub_cancel]
    cases item s with
    | none => simp
    | some m =>
      simp only [ih]
      cases countDown? item a a m.rest with
      | none => rfl
      | some m' => exact Match.map_prepend_map_prepend m.taken m'.taken _

/-! ## One repetition -/

/-- A number stands for the limit of a repetition on a text: it is the greatest number if there is one, and otherwise
    not less than the length of the text. -/
def Limits (limit : Nat) (max : Option Nat) (s : Text) : Prop :=
  match max with
  | some greatest => limit = greatest
  | none => s.length ≤ limit

/-- After a match that took something, one less stands for the limit on the rest of the text. -/
theorem Limits.pred {limit : Nat} {max : Option Nat} {s : Text} {m : Match} (h : Limits (limit + 1) max s)
    (hm : m.whole = s) (htaken : m.taken ≠ []) : Limits limit (max.map (· - 1)) m.rest := by
  cases max with
  | some greatest =>
    have hg : limit + 1 = greatest := h
    show limit = greatest - 1
    omega
  | none =>
    have hs : s.length ≤ limit + 1 := h
    have hrest : m.rest.length < s.length := Match.length_rest_lt hm htaken
    exact Nat.le_of_lt_succ (Nat.lt_of_lt_of_le hrest hs)

/-- What stands for the limit on a text does so on a shorter one. -/
theorem Limits.of_length_le {limit : Nat} {max : Option Nat} {s t : Text} (h : Limits limit max s)
    (hlength : t.length ≤ s.length) : Limits limit max t := by
  cases max with
  | some greatest => exact h
  | none => exact Nat.le_trans hlength h

/-- The limit of a repetition with `a` more matches. -/
theorem Limits.add {limit : Nat} {max : Option Nat} {s : Text} (h : Limits limit max s) (a : Nat) :
    Limits (a + limit) (max.map (a + ·)) s := by
  cases max with
  | some greatest => exact congrArg (a + ·) h
  | none => exact Nat.le_trans h (Nat.le_add_left limit a)

/-- Some number stands for the limit, and is not less than the least number unless the bounds cross. -/
theorem exists_limits {min : Nat} {max : Option Nat} (h : ∀ n ∈ max, min ≤ n) (s : Text) :
    ∃ limit, min ≤ limit ∧ Limits limit max s := by
  cases max with
  | some greatest => exact ⟨greatest, h greatest rfl, rfl⟩
  | none => exact ⟨Nat.max min s.length, Nat.le_max_left .., Nat.le_max_right ..⟩

/-- **One repetition.** The greedy repetition of a rule is the count of its matches down from any number that stands for
    its limit. -/
theorem parse?_repetition_eq_countDown? (r : Rule) :
    ∀ (limit min : Nat) (max : Option Nat) (s : Text), min ≤ limit → Limits limit max s →
      (repetition r min max).parse? s = countDown? r.parse? limit min s := by
  -- on the limit, which every match that takes something lessens by one
  intro limit
  induction limit with
  | zero =>
    intro min max s hmin hlim
    have hmin : min = 0 := Nat.le_zero.mp hmin
    subst hmin
    rw [parse?_repetition, countDown?_zero]
    cases max with
    | some greatest =>
      have hg : 0 = greatest := hlim
      simp [← hg]
    | none =>
      -- the limit is used up, so nothing of the text is left: the rule fails on it or takes nothing
      have hs : s = [] := List.length_eq_zero_iff.mp (Nat.le_zero.mp hlim)
      subst hs
      cases hm : r.parse? [] with
      | none => rfl
      | some m =>
        have htaken : m.taken = [] := (List.append_eq_nil_iff.mp (taken_append_rest hm)).1
        simp [htaken]
  | succ limit ih =>
    intro min max s hmin hlim
    have hany : max.any (· < min) = false := by
      cases max with
      | none => rfl
      | some greatest =>
        have hg : limit + 1 = greatest := hlim
        simpa [← hg] using hmin
    have hzero : max ≠ some 0 := by
      rintro rfl
      exact absurd hlim (Nat.succ_ne_zero limit)
    rw [parse?_repetition, hany, if_neg Bool.false_ne_true, if_neg hzero]
    cases hm : r.parse? s with
    | none => rw [countDown?_succ, hm]
    | some m =>
      -- an empty match ends the one side at once, and the other side only repeats it
      by_cases htaken : m.taken = []
      · have hempty : r.parse? s = some (.empty s) := eq_empty_of_taken_nil hm htaken ▸ hm
        rw [countDown?_of_taken_nil hempty]
        exact if_pos htaken
      · rw [countDown?_succ, hm]
        show (if m.taken = [] then _ else _) = _
        rw [if_neg htaken, ih (min - 1) (max.map (· - 1)) m.rest (by omega)
          (hlim.pred (whole_of_parse? hm) htaken)]

/-! ## All rules -/

private theorem parse?_eq_countParse?_of_length_le {length : Nat} (cap : Cap length) (r : Rule) :
    ∀ s : Text, s.length ≤ length → r.parse? s = r.countParse? cap.greatest s := by
  -- for all texts up to the length at once, since the rules of a sequence are applied to what is left of the text
  induction r using Rule.induction with
  | terminal v =>
    intro s _
    cases s with
    | nil => rw [parse?_terminal_nil, countParse?]
    | cons c s => rw [parse?_terminal_cons, countParse?]
  | sequence rs ih =>
    induction rs with
    | nil =>
      intro s _
      rw [parse?_sequence_nil, countParse?, countEach?]
    | cons r rs ihrs =>
      intro s hs
      have hrest := ihrs fun r hr => ih r (List.mem_cons_of_mem _ hr)
      rw [parse?_sequence_cons, countParse?, countEach?, ← ih r List.mem_cons_self s hs]
      cases hm : r.parse? s with
      | none => rfl
      | some m =>
        have hlen : m.rest.length ≤ length := Nat.le_trans (Match.length_rest_le (whole_of_parse? hm)) hs
        have hm' := hrest m.rest hlen
        rw [countParse?] at hm'
        show ((sequence rs).parse? m.rest).map _ = (countEach? cap.greatest rs m.rest).map _
        rw [hm']
  | choice rs ih =>
    induction rs with
    | nil =>
      intro s _
      rw [parse?_choice_nil, countParse?, countFirst?]
    | cons r rs ihrs =>
      intro s hs
      have hrest := ihrs (fun r hr => ih r (List.mem_cons_of_mem _ hr)) s hs
      rw [countParse?] at hrest
      rw [parse?_choice_cons, countParse?, countFirst?, ← ih r List.mem_cons_self s hs, hrest]
  | repetition r min max ih =>
    intro s hs
    rw [countParse?]
    show _ = if max.getD (cap.greatest r min s) < min then none else _
    split
    · rename_i hlt
      -- only a greatest number of its own can be less than the least number
      cases max with
      | none => exact absurd (cap.min_le r min s hs) (Nat.not_le.mpr hlt)
      | some greatest =>
        have hany : (some greatest).any (· < min) = true := decide_eq_true hlt
        rw [parse?_repetition, hany, if_pos rfl]
    · rename_i hle
      have hlim : Limits (max.getD (cap.greatest r min s)) max s := by
        cases max with
        | none => exact cap.length_le r min s hs
        | some greatest => rfl
      rw [parse?_repetition_eq_countDown? r _ min max s (Nat.not_lt.mp hle) hlim]
      exact countDown?_congr (fun _ _ => whole_of_parse?) ih _ min s hs

/-- **Greedy matching is matching by counting down.** Every rule matches a text just as it does when each of its
    repetitions counts its matches down, whatever numbers stand for the limits that it does not have; and a match
    splits the text. -/
theorem parse?_eq_countParse? (r : Rule) (s : Text) (cap : Cap s.length) :
    r.parse? s = r.countParse? cap.greatest s ∧ ∀ m, r.parse? s = some m → m.taken ++ m.rest = s :=
  ⟨parse?_eq_countParse?_of_length_le cap r s (Nat.le_refl s.length), fun _ => taken_append_rest⟩

/-- A repetition whose rule matches nothing asks for three matches at least, gets one, and succeeds either way. -/
example : (repetition (optional 'a') 3 (some 5)).parse? ['b'] = some ⟨[], ['b']⟩ ∧
    (repetition (optional 'a') 3 (some 5)).countParse? (fun _ _ _ => 0) ['b'] = some ⟨[], ['b']⟩ := by decide

end HttpFields.Rule
