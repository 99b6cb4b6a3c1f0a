import RunningStats.Proofs.Extremes

/-!
# Counts wrap

A count has 64 bits, and nothing guards its additions. One observation raises it by one, but a
merge adds a whole count, and a merge of a summary with itself doubles it, so a session of 65
commands takes it past the last one.

Of the number of observations held, a summary counts the rest modulo `2 ^ 64`, in every session
(`samples_session`): the placeholders and shortcuts of an empty summary do not disturb this, as
they add the count zero. So a merge leaves the sum of both counts just where that sum fits, and a
summary that holds observations passes for an empty one just where they are a multiple of
`2 ^ 64`.

* `samples_keeps`: one observation and one merge keep the count in step;
* `held_le_of_grows`: what is held under a name only grows, unless a command overwrites it;
* `counts_within_word`: counts are exact, and never decrease, as long as the observations held are
  fewer than `2 ^ 64`, and what is left of them beyond;
* `counts_wrap`: one observation, doubled 64 times, is counted as none.
-/

namespace RunningStats.Summary

variable {α ω : Type} [Scalar α]

/-! ## Counts modulo the word -/

/-- The shortcut for an empty operand adds its count too, which is zero. -/
theorem samples_merge (s t : Summary α) : (s.merge t).samples = s.samples + t.samples := by
  unfold merge
  split
  · rename_i h
    rw [h]
    exact (UInt64.add_zero _).symm
  · rfl

theorem samples_keeps :
    Keeps fun (s : Summary α) H => s.samples = UInt64.ofNat H.card where
  empty := rfl
  commit {s H o} h _ := by
    show s.samples + 1 = _
    rw [h, Multiset.card_cons, UInt64.ofNat_add]
    rfl
  merge {s t H K} hs ht := by
    rw [samples_merge, hs, ht, Multiset.card_add, UInt64.ofNat_add]

omit [Scalar α] in
theorem isEmpty_iff (s : Summary α) : s.isEmpty = true ↔ s.samples.toNat = 0 := by
  unfold isEmpty
  rw [beq_iff_eq, ← UInt64.toNat_inj]
  rfl

variable [Wide α ω]

/-- **Every session** counts what is held modulo `2 ^ 64`. -/
theorem samples_session (cs : List (String × Command α)) (name : String) :
    (session cs name).samples.toNat = (held cs name).card % 2 ^ 64 := by
  rw [samples_keeps.run cs name, UInt64.toNat_ofNat']

/-! ## One command more -/

theorem held_concat (cs : List (String × Command α)) (name : String) (c : Command α) :
    held (cs ++ [(name, c)]) name = c.holding (holdAll (Registers.init 0) cs) name := by
  unfold held holdAll
  rw [List.foldl_append]
  exact Registers.get_set_self _ name _

theorem session_concat_merge (cs : List (String × Command α)) (target source : String) :
    session (cs ++ [(target, .merge source)]) target =
      (session cs target).merge (session cs source) := by
  unfold session runAll
  rw [List.foldl_append]
  exact Registers.get_set_self _ target _

/-- Merged with itself, a summary holds everything twice. -/
theorem card_held_doubled (cs : List (String × Command α)) (name : String) : ∀ n : ℕ,
    (held (cs ++ List.replicate n (name, .merge name)) name).card = 2 ^ n * (held cs name).card
  | 0 => by rw [List.replicate_zero, List.append_nil, pow_zero, one_mul]
  | n + 1 => by
    rw [List.replicate_succ', ← List.append_assoc, held_concat, pow_succ, mul_right_comm,
      ← card_held_doubled cs name n, Nat.mul_two]
    exact Multiset.card_add _ _

/-! ## What is held grows -/

/-- Adds to what its name holds, where the others overwrite it. -/
def Command.Grows : Command α → Prop
  | reset | copy _ | replaceWith _ _ _ => False
  | add _ | addValue _ | addValues _ | addWeighted _ _ | merge _ => True

theorem Command.le_holding {c : Command α} (h : c.Grows) (hs : Holdings α) (name : String) :
    hs.get name ≤ c.holding hs name := by
  cases c with
  | reset => exact h.elim
  | copy source => exact h.elim
  | replaceWith plan values weights => exact h.elim
  | add o => exact Multiset.le_add_right _ _
  | addValue value => exact Multiset.le_add_right _ _
  | addValues values => exact Multiset.le_add_right _ _
  | addWeighted values weights =>
    rw [holding]
    split
    · exact Multiset.le_add_right _ _
    · exact le_rfl
  | merge source => exact Multiset.le_add_right _ _

theorem le_holdAll {name : String} : ∀ (cs : List (String × Command α)) (hs : Holdings α),
    (∀ c ∈ cs, c.1 = name → c.2.Grows) → hs.get name ≤ (holdAll hs cs).get name
  | [], _, _ => le_rfl
  | (target, c) :: cs, hs, h => by
    have hstep : hs.get name ≤ (hs.set target (c.holding hs target)).get name := by
      by_cases hn : name = target
      · subst hn
        rw [Registers.get_set_self]
        exact Command.le_holding (h (name, c) List.mem_cons_self rfl) hs name
      · rw [Registers.get_set_of_ne _ _ hn]
    exact hstep.trans (le_holdAll cs _ fun d hd => h d (List.mem_cons_of_mem _ hd))

/-- **What is held under a name only grows** in a run that does not overwrite it. -/
theorem held_le_of_grows {name : String} (cs : List (String × Command α))
    {more : List (String × Command α)} (h : ∀ c ∈ more, c.1 = name → c.2.Grows) :
    held cs name ≤ held (cs ++ more) name := by
  unfold held
  rw [holdAll, holdAll, List.foldl_append]
  exact le_holdAll more _ h

/-! ## Sessions -/

/-- **Counts of a session.** They are what is left of the number of observations held modulo
`2 ^ 64`, so a summary reports that it is empty just where that is nothing. A merge leaves the sum
of both counts just where the sum fits the word. Where fewer than `2 ^ 64` observations are held,
the counts, those below zero too, are the sums, and they never decrease while nothing overwrites
the summary. -/
theorem counts_within_word [OrderedScalar α] (cs : List (String × Command α)) :
    (∀ name, (session cs name).samples.toNat = (held cs name).card % 2 ^ 64 ∧
      ((session cs name).isEmpty = true ↔ 2 ^ 64 ∣ (held cs name).card)) ∧
    (∀ target source,
      let a := session cs target
      let b := session cs source
      let m := session (cs ++ [(target, .merge source)]) target
      (m.samples.toNat = a.samples.toNat + b.samples.toNat ↔
        a.samples.toNat + b.samples.toNat < 2 ^ 64) ∧
      ((held cs target).card + (held cs source).card < 2 ^ 64 →
        m.samples.toNat = a.samples.toNat + b.samples.toNat ∧
        m.downsideSamples.toNat = a.downsideSamples.toNat + b.downsideSamples.toNat)) ∧
    (∀ name more, (∀ c ∈ more, c.1 = name → c.2.Grows) →
      (held (cs ++ more) name).card < 2 ^ 64 →
      (session cs name).samples ≤ (session (cs ++ more) name).samples ∧
      (held cs name ≠ 0 → (session (cs ++ more) name).isEmpty = false)) := by
  refine ⟨fun name => ⟨samples_session cs name, ?_⟩, fun target source => ⟨?_, fun hc => ?_⟩,
    fun name more hgrows hc => ?_⟩
  · rw [isEmpty_iff, samples_session, Nat.dvd_iff_mod_eq_zero]
  · rw [session_concat_merge, samples_merge]
    constructor
    · intro h
      rw [← h]
      exact UInt64.toNat_lt _
    · exact toNat_add_of_lt
  · have ha : Describes (session cs target) (held cs target) :=
      describes_tracks.run cs target (by omega)
    have hb : Describes (session cs source) (held cs source) :=
      describes_tracks.run cs source (by omega)
    have hm := ha.merge hb hc
    rw [session_concat_merge]
    constructor
    · rw [hm.samples, Multiset.card_add, ha.samples, hb.samples]
    · rw [hm.downside, Multiset.countP_add, ha.downside, hb.downside]
  · have hle := Multiset.card_le_card (held_le_of_grows cs hgrows)
    have hafter : (session (cs ++ more) name).samples.toNat = (held (cs ++ more) name).card := by
      rw [samples_session, Nat.mod_eq_of_lt hc]
    refine ⟨?_, fun hne => ?_⟩
    · rw [UInt64.le_iff_toNat_le, hafter, samples_session, Nat.mod_eq_of_lt (by omega)]
      exact hle
    · have hpos : 0 < (held cs name).card := Multiset.card_pos.mpr hne
      rw [Bool.eq_false_iff, ne_eq, isEmpty_iff, hafter]
      omega

/-- Values below zero and above, one observation refused, and merges with another summary and with
a copy of itself. -/
theorem counts_within_word_float :
    let cs : List (String × Command Float) :=
      [("a", .addWeighted [-1.5, 2] [0, 1]), ("a", .add ⟨1, -1⟩), ("b", .addValues [-3, 4, 5])]
    let more : List (String × Command Float) := [("a", .merge "b"), ("a", .merge "a")]
    (held cs "a").card + (held cs "b").card < 2 ^ 64 ∧
      (session (cs ++ [("a", .merge "b")]) "a").samples.toNat =
        (session cs "a").samples.toNat + (session cs "b").samples.toNat ∧
      (∀ c ∈ more, c.1 = "a" → c.2.Grows) ∧ (held (cs ++ more) "a").card < 2 ^ 64 ∧
      held cs "a" ≠ 0 ∧ (session cs "a").samples ≤ (session (cs ++ more) "a").samples ∧
      (session (cs ++ more) "a").isEmpty = false := by
  intro cs more
  have hc : (held cs "a").card + (held cs "b").card < 2 ^ 64 := by decide +kernel
  have hgrows : ∀ c ∈ more, c.1 = "a" → c.2.Grows := by
    simp [more, Command.Grows]
  have hafter : (held (cs ++ more) "a").card < 2 ^ 64 := by decide +kernel
  have hne : held cs "a" ≠ 0 := by decide +kernel
  obtain ⟨-, hmerge, hmore⟩ := counts_within_word cs
  obtain ⟨hle, hsome⟩ := hmore "a" more hgrows hafter
  exact ⟨hc, ((hmerge "a" "b").2 hc).1, hgrows, hafter, hne, hle, hsome hne⟩

/-- **Counts do wrap**: after 63 merges with itself a summary of one observation counts `2 ^ 63`,
and one more merge leaves a count of zero, with which the summary reports that it is empty. -/
theorem counts_wrap :
    let cs : List (String × Command Float) :=
      [("a", .add ⟨1, 1⟩)] ++ List.replicate 63 ("a", .merge "a")
    let a := session cs "a"
    let m := session (cs ++ [("a", .merge "a")]) "a"
    a.isEmpty = false ∧ a.samples.toNat = 2 ^ 63 ∧
      m.samples.toNat ≠ a.samples.toNat + a.samples.toNat ∧ ¬ a.samples ≤ m.samples ∧
      held (cs ++ [("a", .merge "a")]) "a" ≠ 0 ∧ m.isEmpty = true := by
  intro cs a m
  have hone : (held [("a", Command.add (⟨1, 1⟩ : Observation Float))] "a").card = 1 := by
    decide +kernel
  have hcard : (held cs "a").card = 2 ^ 63 := by
    rw [card_held_doubled, hone]
    rfl
  have hdoubled : (held (cs ++ [("a", .merge "a")]) "a").card = 2 ^ 64 := by
    have h := card_held_doubled cs "a" 1
    rw [hcard] at h
    exact h
  have ha : a.samples.toNat = 2 ^ 63 := by
    rw [samples_session, hcard]
    rfl
  have hm : m.samples.toNat = 0 := by
    rw [samples_session, hdoubled]
    rfl
  refine ⟨?_, ha, ?_, ?_, ?_, ?_⟩
  · rw [Bool.eq_false_iff, ne_eq, isEmpty_iff, ha]
    decide
  · rw [hm, ha]
    decide
  · rw [UInt64.le_iff_toNat_le, hm, ha]
    decide
  · intro h0
    rw [h0] at hdoubled
    exact absurd hdoubled (by decide)
  · rw [isEmpty_iff, hm]

end RunningStats.Summary
