import MemoryPolicy.Retention.Agreement
import MemoryPolicy.Retention.Binary
import MemoryPolicy.Sieve.Guard

/-! Scope isolation.  A `DropOutsideScope` rule before every batch rule is a guard of the sieve:
no candidate outside the scope gets past it, so the candidates of other scopes neither defer nor
take a slot of a batch rule, and the decisions inside the scope do not depend on them. -/

namespace MemoryPolicy

variable {F32 F64 : Type} [F32Ops F32 F64] [F64Ops F64] {ι : Type}

def inScope (required : Option Scope) (candidate : RetentionCandidate F32) : Bool :=
  scopeMatches (required.map Scope.asStr) candidate.metadata.scope

/-- A `DropOutsideScope` rule stands before every batch rule. -/
def RetentionPolicy.Guarded (policy : RetentionPolicy) (required : Option Scope) : Prop :=
  ∃ front back, policy.rules = front ++ .dropOutsideScope required :: back ∧
    ∀ rule ∈ front, rule.isBatch = false

section Guard

variable (view : ι → RetentionCandidate F32) {required : Option Scope}

theorem alone_stages {rules : List RetentionRule} (h : ∀ rule ∈ rules, rule.isBatch = false)
    {s : Sieve.Stage ι RetentionDecision} (hs : s ∈ stages view rules) :
    ∃ verdict, s = .each verdict := by
  obtain ⟨rule, hrule, rfl⟩ := List.mem_map.mp hs
  have alone := h rule hrule
  cases rule <;> first | exact ⟨_, rfl⟩ | exact nomatch alone

theorem evaluate_dropOutsideScope (candidate : RetentionCandidate F32)
    (h : (RetentionRule.dropOutsideScope required).evaluate candidate = .defer) :
    inScope required candidate = true := by
  simpa [RetentionRule.evaluate, inScope] using h

/-- Rules that decide on each candidate alone, with a `DropOutsideScope` rule among them, are a
guard for its scope. -/
theorem guard_stages {rules : List RetentionRule} (h : ∀ rule ∈ rules, rule.isBatch = false)
    (drops : .dropOutsideScope required ∈ rules) :
    Sieve.Guard (fun e => inScope required (view e)) (stages view rules) where
  alone _ hs := alone_stages view h hs
  settles e he := by
    rw [single_stages, List.find?_eq_none] at he
    have deferred := he _ (List.mem_map_of_mem drops)
    exact evaluate_dropOutsideScope _ (by simpa using deferred)

end Guard

namespace RetentionPolicy

variable {policy : RetentionPolicy} {required : Option Scope}

theorem Guarded.of_isBatch (guarded : policy.Guarded required)
    {before after : List RetentionRule} {rule : RetentionRule}
    (split : policy.rules = before ++ rule :: after) (batch : rule.isBatch = true) :
    ∃ front rest, before = (front ++ [.dropOutsideScope required]) ++ rest ∧
      ∀ rule ∈ front, rule.isBatch = false := by
  obtain ⟨front, back, hrules, alone⟩ := guarded
  rw [hrules] at split
  have other : rule ≠ .dropOutsideScope required := fun same => by
    rw [same] at batch
    exact nomatch batch
  rcases List.append_eq_append_iff.mp split with ⟨rest, hbefore, hback⟩ | ⟨rest, hfront, hafter⟩
  · rcases List.cons_eq_append_iff.mp hback with ⟨-, hrule⟩ | ⟨rest', hrest, -⟩
    · exact absurd (List.cons.inj hrule).1 other
    · exact ⟨front, rest', by rw [hbefore, hrest, List.append_assoc]; rfl, alone⟩
  · rcases List.cons_eq_append_iff.mp hafter with ⟨-, hrule⟩ | ⟨rest', hrest, -⟩
    · exact absurd (List.cons.inj hrule).1.symm other
    · have mem : rule ∈ front := by simp [hfront, hrest]
      exact absurd (batch.symm.trans (alone rule mem)) (by decide)

section Guarded

variable (view : ι → RetentionCandidate F32)

theorem guard_front {front : List RetentionRule} (alone : ∀ rule ∈ front, rule.isBatch = false) :
    Sieve.Guard (fun e => inScope required (view e))
      (stages view (front ++ [.dropOutsideScope required])) := by
  apply guard_stages view _ (by simp)
  intro rule hrule
  rcases List.mem_append.mp hrule with hrule | hrule
  · exact alone rule hrule
  · rw [List.mem_singleton.mp hrule]
    rfl

theorem entriesWith_filter (d : RetentionDecision) (p : ι → Bool)
    (verdicts : List (ι × RetentionDecision)) :
    (entriesWith d verdicts).filter p = entriesWith d (verdicts.filter fun v => p v.1) := by
  rw [entriesWith, entriesWith, List.filter_map, List.filter_comm]
  rfl

theorem Guarded.stages_eq (guarded : policy.Guarded required) :
    ∃ front back, stages view policy.rules = front ++ back ∧
      Sieve.Guard (fun e => inScope required (view e)) front := by
  obtain ⟨front, back, hrules, alone⟩ := guarded
  refine ⟨_, stages view back, ?_, guard_front view alone⟩
  rw [hrules, ← stages_append, List.append_assoc]
  rfl

/-- The buckets inside the scope depend on the entries inside the scope only. -/
theorem Guarded.filter_bucket (guarded : policy.Guarded required) {xs ys : List ι}
    (same : xs.filter (fun e => inScope required (view e)) =
      ys.filter fun e => inScope required (view e)) (d : RetentionDecision) :
    ((policy.evaluateBatchBy view xs).bucket d).filter (fun e => inScope required (view e)) =
      ((policy.evaluateBatchBy view ys).bucket d).filter fun e => inScope required (view e) := by
  obtain ⟨front, back, split, guard⟩ := guarded.stages_eq view
  simp only [bucket_evaluateBatchBy, entriesWith_filter, verdicts, split,
    guard.verdicts_filter _ _ same]

theorem Guarded.inScope_of_mem_defer (guarded : policy.Guarded required) {entries : List ι}
    {e : ι} (h : e ∈ (policy.evaluateBatchBy view entries).defer) :
    inScope required (view e) = true := by
  obtain ⟨front, back, split, guard⟩ := guarded.stages_eq view
  have passed := passed_of_mem_defer view h
  rw [split] at passed
  exact guard.of_mem_passed passed

theorem Guarded.inScope_of_mem_pool (guarded : policy.Guarded required)
    {before after : List RetentionRule} {rule : RetentionRule}
    (split : policy.rules = before ++ rule :: after) (batch : rule.isBatch = true)
    {entries : List ι} {e : ι} (h : e ∈ (applyRules view before {} entries).2) :
    inScope required (view e) = true := by
  obtain ⟨front, rest, rfl, alone⟩ := guarded.of_isBatch split batch
  rw [applyRules_eq, stages_append] at h
  exact (guard_front view alone).of_mem_passed h

end Guarded

/-- A batch rule only keeps, and only entries of its pool. -/
theorem keep_applyBatch (view : ι → RetentionCandidate F32) (rule : RetentionRule)
    (report : RetentionReport ι) (pool : List ι) :
    ∃ taken, (rule.applyBatch view report pool).1.keep = report.keep ++ taken ∧ taken ⊆ pool := by
  rw [applyBatch_eq]
  refine ⟨_, rfl, ?_⟩
  intro e he
  rw [mem_entriesWith] at he
  exact ((rule.stage.comap view).perm pool).subset
    (List.mem_append_left _ (List.mem_map_of_mem he))

/-- Scope isolation: in a guarded policy the decisions on the candidates in scope depend on these
candidates only, and no candidate out of scope is deferred or takes a slot of a batch rule. -/
theorem evaluateBatch_isolated (guarded : policy.Guarded required)
    {xs ys : List (RetentionCandidate F32)}
    (same : xs.filter (inScope required) = ys.filter (inScope required)) :
    (∀ d, ((policy.evaluateBatch xs).bucket d).filter (inScope required) =
        ((policy.evaluateBatch ys).bucket d).filter (inScope required)) ∧
      (∀ c ∈ (policy.evaluateBatch xs).defer, inScope required c = true) ∧
      ∀ before rule after, policy.rules = before ++ rule :: after → rule.isBatch = true →
        let (report, pool) := applyRules id before {} xs
        (∀ c ∈ pool, inScope required c = true) ∧
          ∃ taken, (rule.applyBatch id report pool).1.keep = report.keep ++ taken ∧
            ∀ c ∈ taken, inScope required c = true := by
  refine ⟨guarded.filter_bucket id same, fun c hc => guarded.inScope_of_mem_defer id hc, ?_⟩
  intro before rule after split batch
  have pool : ∀ c ∈ (applyRules id before {} xs).2, inScope required c = true :=
    fun c hc => guarded.inScope_of_mem_pool id split batch hc
  obtain ⟨taken, htaken, sub⟩ := keep_applyBatch id rule (applyRules id before {} xs).1
    (applyRules id before {} xs).2
  exact ⟨pool, taken, htaken, fun c hc => pool c (sub hc)⟩

theorem evaluateBatch_isolated_two_scopes :
    let candidate (scope : String) (sequence : UInt64) : RetentionCandidate Binary32 :=
      { metadata := ⟨1, .demotedMessage, "thread", "user", "key", some scope⟩
        sequence := some sequence }
    let policy : RetentionPolicy :=
      { rules := [.dropOutsideScope (some (Scope.new "a")), .keepMostRecent 1] }
    ((policy.evaluateBatch [candidate "a" 1]).keep).filter (inScope (some (Scope.new "a"))) =
      ((policy.evaluateBatch [candidate "b" 2, candidate "a" 1]).keep).filter
        (inScope (some (Scope.new "a"))) :=
  (evaluateBatch_isolated ⟨[], _, rfl, by simp⟩ (by decide)).1 .keep

end RetentionPolicy

end MemoryPolicy
