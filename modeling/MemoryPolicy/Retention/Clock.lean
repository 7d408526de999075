import MemoryPolicy.Retention.Rational
import MemoryPolicy.Retention.Sweep
import MemoryPolicy.Sieve.Resort
import MemoryPolicy.Sieve.Rewrite

/-! Salience as the clock advances.  Of the floating-point operations it is assumed that, up to some
age, scores fall strictly with age and grow strictly with importance; far beyond the half-life they
underflow, and nothing is assumed.  As long as candidates do not trade importance against recency,
their ranking is then the same at every instant, and a backend may sweep with its clock. -/

namespace MemoryPolicy

open RetentionCandidate Sieve Transition

variable {F32 F64 : Type} [F32Ops F32 F64] [F64Ops F64] {ι : Type}

/-- Up to the age `span`, the scores of the weights fall strictly with age, and at each age they
grow strictly with the weight. -/
structure StrictDecay (weights : Set F64) (halfLifeMs span : UInt64) : Prop where
  mul_decay : ∀ w ∈ weights, ∀ age age', age < age' → age' ≤ span →
    F64Ops.totalCmp (F64Ops.mul w (decay age' halfLifeMs)) (F64Ops.mul w (decay age halfLifeMs)) =
      .lt
  mul_weight : ∀ w ∈ weights, ∀ v ∈ weights, F64Ops.totalCmp w v = .lt → ∀ age ≤ span,
    F64Ops.totalCmp (F64Ops.mul w (decay age halfLifeMs)) (F64Ops.mul v (decay age halfLifeMs)) =
      .lt

/-- The candidate has one of the weights, and its age at an instant is at most `span`. -/
def RetentionCandidate.Within (weights : Set F64) (span t : UInt64)
    (self : RetentionCandidate F32) : Prop :=
  self.weight ∈ weights ∧
    ∃ reference, self.reference = some reference ∧ reference ≤ t ∧ saturatingSub t reference ≤ span

/-! ### The ranking that lasts -/

/-- By importance, and where recency counts then by reference time, larger ones first. -/
def lasting (halfLifeMs : UInt64) : Ranking (RetentionCandidate F32) :=
  let important : Ranking (RetentionCandidate F32) := .comap weight (.largest F64Ops.totalCmp)
  if halfLifeMs = 0 then important else important.lex (.comap reference (.largest compare))

theorem saturatingSub_lt {t older newer : UInt64} (past : newer ≤ t) (lt : older < newer) :
    saturatingSub t newer < saturatingSub t older := by
  have hpast := UInt64.le_iff_toNat_le.mp past
  have hlt := UInt64.lt_iff_toNat_lt.mp lt
  have past' : older ≤ t := UInt64.le_trans (UInt64.le_of_lt lt) past
  rw [saturatingSub, saturatingSub, if_pos past, if_pos past', UInt64.lt_iff_toNat_lt,
    UInt64.toNat_sub_of_le _ _ past, UInt64.toNat_sub_of_le _ _ past']
  omega

theorem lasting_zero (a b : RetentionCandidate F32) :
    (lasting 0).cmp a b = F64Ops.totalCmp b.weight a.weight := rfl

theorem lasting_of_references {halfLifeMs newer older : UInt64} (positive : halfLifeMs ≠ 0)
    {a b : RetentionCandidate F32} (ha : a.reference = some newer) (hb : b.reference = some older) :
    (lasting halfLifeMs).cmp a b =
      (F64Ops.totalCmp b.weight a.weight).then (compare older newer) := by
  rw [lasting, if_neg positive]
  show (F64Ops.totalCmp b.weight a.weight).then (compare b.reference a.reference) = _
  rw [ha, hb]
  rfl

/-- A score falls with age and with the weight. -/
theorem StrictDecay.score_lt {weights : Set F64} {halfLifeMs span : UInt64}
    (laws : StrictDecay weights halfLifeMs span) {w v : F64} (hw : w ∈ weights) (hv : v ∈ weights)
    {age age' : UInt64} (older : age ≤ age') (within : age' ≤ span)
    (lighter : F64Ops.totalCmp w v = .lt) :
    F64Ops.totalCmp (F64Ops.mul w (decay age' halfLifeMs))
      (F64Ops.mul v (decay age halfLifeMs)) = .lt := by
  have weight := laws.mul_weight w hw v hv lighter age' within
  rcases UInt64.le_iff_lt_or_eq.mp older with lt | rfl
  · exact Std.TransCmp.lt_trans weight (laws.mul_decay v hv age age' lt within)
  · exact weight

/-- Where one candidate dominates another, their ranking by salience is the one that lasts. -/
theorem mostSalient_of_dominates {weights : Set F64} {halfLifeMs span t : UInt64}
    (laws : halfLifeMs ≠ 0 → StrictDecay weights halfLifeMs span) {a b : RetentionCandidate F32}
    (ha : a.Within weights span t) (hb : b.Within weights span t)
    (dominates : Dominates halfLifeMs a b) :
    (mostSalient t halfLifeMs).cmp a b = (lasting halfLifeMs).cmp a b := by
  show F64Ops.totalCmp (b.salience t halfLifeMs) (a.salience t halfLifeMs) = _
  by_cases positive : halfLifeMs = 0
  · rw [positive, salience_of_no_halfLife, salience_of_no_halfLife, lasting_zero]
  obtain ⟨ha, newer, hnewer, past, -⟩ := ha
  obtain ⟨hb, older, holder, -, inSpan⟩ := hb
  have laws := laws positive
  have le : older ≤ newer := by
    rcases dominates.recency with zero | ⟨valid, written⟩ | ⟨_, _, same, same', le⟩
    · exact absurd zero positive
    · simp [reference, valid, written] at hnewer
    · rw [hnewer] at same
      rw [holder] at same'
      rwa [Option.some.inj same, Option.some.inj same']
  rw [lasting_of_references positive hnewer holder, salience_of_reference hnewer t positive,
    salience_of_reference holder t positive]
  rcases Ordering.isLE_iff_eq_lt_or_eq_eq.mp dominates.weight with lighter | same
  · rw [lighter]
    exact laws.score_lt hb ha (saturatingSub_antitone t le) inSpan lighter
  · rw [same, F64Ops.totalCmp_eq _ _ same]
    rcases UInt64.le_iff_lt_or_eq.mp le with lt | rfl
    · rw [Std.compare_eq_lt.mpr lt]
      exact laws.mul_decay _ ha _ _ (saturatingSub_lt past lt) inSpan
    · rw [show F64Ops.totalCmp _ _ = .eq from Std.ReflCmp.compare_self,
        show compare older older = .eq from Std.ReflCmp.compare_self]
      rfl

theorem mostSalient_eq_lasting {weights : Set F64} {halfLifeMs span t : UInt64}
    (laws : halfLifeMs ≠ 0 → StrictDecay weights halfLifeMs span) {a b : RetentionCandidate F32}
    (ha : a.Within weights span t) (hb : b.Within weights span t)
    (chain : Dominates halfLifeMs a b ∨ Dominates halfLifeMs b a) :
    (mostSalient t halfLifeMs).cmp a b = (lasting halfLifeMs).cmp a b := by
  rcases chain with dominates | dominated
  · exact mostSalient_of_dominates laws ha hb dominates
  · let now : Ranking (RetentionCandidate F32) := mostSalient t halfLifeMs
    let later : Ranking (RetentionCandidate F32) := lasting halfLifeMs
    have swap : now.cmp a b = (now.cmp b a).swap := now.trans.eq_swap
    have swap' : later.cmp a b = (later.cmp b a).swap := later.trans.eq_swap
    show now.cmp a b = later.cmp a b
    rw [swap, swap', mostSalient_of_dominates laws hb ha dominated]

/-! ### Policies at an instant -/

/-- The rule with its salience taken at an instant. -/
def RetentionRule.salienceAt (t : UInt64) : RetentionRule → RetentionRule
  | .keepTopBySalience count halfLifeMs _ => .keepTopBySalience count halfLifeMs t
  | rule => rule

/-- The policy with every salience taken at an instant. -/
def RetentionPolicy.salienceAt (policy : RetentionPolicy) (t : UInt64) : RetentionPolicy :=
  { policy with rules := policy.rules.map (RetentionRule.salienceAt t) }

/-- The stage of a rule where salience ranks as it lasts. -/
def RetentionRule.lasting : RetentionRule → Stage (RetentionCandidate F32) RetentionDecision
  | .keepTopBySalience count halfLifeMs _ => .top (MemoryPolicy.lasting halfLifeMs) count .keep
  | rule => rule.stage

namespace RetentionPolicy

/-- The arithmetic decays strictly for each half-life of the policy. -/
def StrictlyDecays (policy : RetentionPolicy) (weights : Set F64) (span : UInt64) : Prop :=
  ∀ count halfLifeMs asOfUnixMs, .keepTopBySalience count halfLifeMs asOfUnixMs ∈ policy.rules →
    halfLifeMs ≠ 0 → StrictDecay weights halfLifeMs span

variable (view : ι → RetentionCandidate F32)

/-- At the instant all entries have ages within the span, and of any two, one is at least as
important and at least as recent as the other. -/
structure InSpan (policy : RetentionPolicy) (weights : Set F64) (span t : UInt64) (pool : List ι) :
    Prop where
  within : ∀ e ∈ pool, (view e).Within weights span t
  chain : ∀ e ∈ pool, ∀ f ∈ pool, ∀ count halfLifeMs asOfUnixMs,
    .keepTopBySalience count halfLifeMs asOfUnixMs ∈ policy.rules →
      Dominates halfLifeMs (view e) (view f) ∨ Dominates halfLifeMs (view f) (view e)

variable {view} {policy : RetentionPolicy} {weights : Set F64} {span t u : UInt64} {pool : List ι}

theorem InSpan.subset (h : policy.InSpan view weights span t pool) {part : List ι}
    (sub : part ⊆ pool) : policy.InSpan view weights span t part where
  within e he := h.within e (sub he)
  chain e he f hf := h.chain e (sub he) f (sub hf)

theorem InSpan.map (h : policy.InSpan view weights span t pool) :
    policy.InSpan id weights span t (pool.map view) where
  within c hc := by
    obtain ⟨e, he, rfl⟩ := List.mem_map.mp hc
    exact h.within e he
  chain c hc d hd := by
    obtain ⟨e, he, rfl⟩ := List.mem_map.mp hc
    obtain ⟨f, hf, rfl⟩ := List.mem_map.mp hd
    exact h.chain e he f hf

theorem InSpan.alike (h : policy.InSpan view weights span t pool)
    (laws : policy.StrictlyDecays weights span) {rule : RetentionRule} (mem : rule ∈ policy.rules) :
    Stage.Alike pool ((rule.salienceAt t).stage.comap view) (rule.lasting.comap view) := by
  cases rule with
  | keepTopBySalience count halfLifeMs asOfUnixMs =>
    apply Stage.alike_top
    intro e he f hf
    exact mostSalient_eq_lasting (laws _ _ _ mem) (h.within e he) (h.within f hf)
      (h.chain e he f hf _ _ _ mem)
  | _ => exact Stage.Alike.refl _ _

theorem InSpan.verdicts_eq (h : policy.InSpan view weights span t pool)
    (laws : policy.StrictlyDecays weights span) :
    (policy.salienceAt t).verdicts view pool =
      Sieve.verdicts (policy.rules.map fun rule => rule.lasting.comap view)
        policy.defaultDecision pool := by
  simp only [verdicts, stages, salienceAt, List.map_map]
  exact verdicts_congr (fun rule mem => h.alike laws mem) _

/-- While no age is beyond the span in which scores decay strictly, and no candidate is more
important and less recent than another, the report does not depend on the instant at which salience
is taken. -/
theorem evaluateBatch_salienceAt (policy : RetentionPolicy) {weights : Set F64} {span t u : UInt64}
    (laws : policy.StrictlyDecays weights span) {candidates : List (RetentionCandidate F32)}
    (ht : policy.InSpan id weights span t candidates)
    (hu : policy.InSpan id weights span u candidates) :
    (policy.salienceAt t).evaluateBatch candidates =
      (policy.salienceAt u).evaluateBatch candidates := by
  have same : (policy.salienceAt t).verdicts id candidates =
      (policy.salienceAt u).verdicts id candidates :=
    (ht.verdicts_eq laws).trans (hu.verdicts_eq laws).symm
  rw [evaluateBatch, evaluateBatch, evaluateBatchBy_eq, evaluateBatchBy_eq, same]

/-- A candidate with a write timestamp. -/
def writtenAt (time : UInt64) : RetentionCandidate ℚ :=
  { metadata := ⟨1, .demotedMessage, "thread", "user", "key", none⟩
    writtenAtUnixMs := some time }

/-- At whole half-lives, powers of one half decay strictly. -/
theorem strictDecay_rat (span : UInt64) : StrictDecay {(1 : ℚ)} 1 span where
  mul_decay w hw age age' older _ := by
    obtain rfl := Set.mem_singleton_iff.mp hw
    apply compare_lt_iff_lt.mpr
    show 1 * (decay age' 1 : ℚ) < 1 * decay age 1
    rw [one_mul, one_mul, decay_rat, decay_rat, UInt64.toNat_one, Nat.cast_one, div_one, div_one,
      Nat.floor_natCast, Nat.floor_natCast]
    exact pow_lt_pow_right_of_lt_one₀ (by norm_num) (by norm_num) (UInt64.lt_iff_toNat_lt.mp older)
  mul_weight w hw v hv lighter := by
    obtain rfl := Set.mem_singleton_iff.mp hw
    obtain rfl := Set.mem_singleton_iff.mp hv
    exact absurd (compare_lt_iff_lt.mp lighter) (lt_irrefl _)

def newestWritten : RetentionPolicy := ⟨[.keepTopBySalience 1 1 0], .drop⟩

theorem strictlyDecays_newestWritten (span : UInt64) :
    newestWritten.StrictlyDecays {(1 : ℚ)} span := by
  intro count halfLifeMs asOfUnixMs mem _
  obtain ⟨-, rfl, -⟩ : count = 1 ∧ halfLifeMs = 1 ∧ asOfUnixMs = 0 := by
    simpa [newestWritten] using mem
  exact strictDecay_rat span

theorem inSpan_written {times : List UInt64} {span t : UInt64}
    (h : (times.all fun time => time ≤ t ∧ saturatingSub t time ≤ span) = true) :
    newestWritten.InSpan writtenAt {(1 : ℚ)} span t times where
  within time mem := by
    obtain ⟨past, near⟩ := of_decide_eq_true (List.all_eq_true.mp h time mem)
    exact ⟨rfl, time, rfl, past, near⟩
  chain a _ b _ _ halfLifeMs _ _ := by
    rcases UInt64.le_total b a with le | le
    · exact .inl ⟨AtMost.refl _, .inr (.inr ⟨a, b, rfl, rfl, le⟩)⟩
    · exact .inr ⟨AtMost.refl _, .inr (.inr ⟨b, a, rfl, rfl, le⟩)⟩

theorem evaluateBatch_salienceAt_written :
    let candidates := [10, 15].map writtenAt
    (newestWritten.salienceAt 17).evaluateBatch candidates =
      (newestWritten.salienceAt 20).evaluateBatch candidates :=
  newestWritten.evaluateBatch_salienceAt (strictlyDecays_newestWritten 10)
    (inSpan_written rfl).map (inSpan_written rfl).map

/-! ### Sweeps by the clock -/

variable [DecidableEq ι] {s : Collector ι}

end RetentionPolicy

end MemoryPolicy
