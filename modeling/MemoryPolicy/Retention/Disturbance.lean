import MemoryPolicy.Retention.Agreement
import MemoryPolicy.Sieve.Exchange

/-! One more candidate in the batch.  The candidates behind it move up by one position; at most
one candidate gets another decision, and that one was kept before. -/

namespace MemoryPolicy

namespace RetentionPolicy

variable {F32 F64 : Type} [F32Ops F32 F64] [F64Ops F64]

/-- The position of a candidate after one more is inserted at position `p`. -/
def shifted (p i : Nat) : Nat := if i < p then i else i + 1

def unshifted (p i : Nat) : Nat := if i < p then i else i - 1

theorem unshifted_shifted (p i : Nat) : unshifted p (shifted p i) = i := by
  unfold unshifted shifted
  split_ifs <;> omega

theorem shifted_lt {p i n : Nat} (h : i < n) : shifted p i < n + 1 := by
  unfold shifted
  split <;> omega

theorem zipIdx_shifted {α : Type} (front back : List α) :
    (front ++ back).zipIdx.map (Prod.map id (shifted front.length)) =
      front.zipIdx ++ back.zipIdx (front.length + 1) := by
  have before : front.zipIdx.map (Prod.map id (shifted front.length)) = front.zipIdx := by
    refine (List.map_congr_left fun e he => ?_).trans (List.map_id _)
    have := List.snd_lt_of_mem_zipIdx he
    simp [Prod.map, shifted, show e.2 < front.length by simpa using this]
  have behind : (back.zipIdx front.length).map (Prod.map id (shifted front.length)) =
      back.zipIdx (front.length + 1) := by
    rw [List.zipIdx_succ]
    apply List.map_congr_left
    intro e he
    have := List.le_snd_of_mem_zipIdx he
    simp [Prod.map, shifted, show ¬ e.2 < front.length by omega]
  rw [List.zipIdx_append, List.map_append, before, Nat.zero_add, behind]

theorem extra_insert (front back : List (RetentionCandidate F32)) (c : RetentionCandidate F32) :
    Sieve.Extra (c, front.length)
      ((front ++ back).zipIdx.map (Prod.map id (shifted front.length)))
      (front ++ c :: back).zipIdx := by
  rw [zipIdx_shifted, List.zipIdx_append, List.zipIdx_cons, Nat.zero_add]
  exact Sieve.Extra.insert _ _ _

/-- Positions play no part in the verdicts. -/
theorem mem_verdicts_shifted (policy : RetentionPolicy) (p : Nat)
    {entries : List (RetentionCandidate F32 × Nat)} {c : RetentionCandidate F32} {i : Nat}
    {d : RetentionDecision} (h : ((c, i), d) ∈ policy.verdicts Prod.fst entries) :
    ((c, shifted p i), d) ∈
      policy.verdicts Prod.fst (entries.map (Prod.map id (shifted p))) := by
  have presented := Sieve.verdicts_comap (Prod.map id (shifted p))
    (stages (Prod.fst : RetentionCandidate F32 × Nat → _) policy.rules) policy.defaultDecision
    entries
  rw [← stages_comp] at presented
  rw [verdicts, ← presented]
  exact List.mem_map_of_mem h

theorem disturbs_one (policy : RetentionPolicy) (front back : List (RetentionCandidate F32))
    (c : RetentionCandidate F32) :
    ∃ j, ∀ i < (front ++ back).length,
      policy.decisionAt (front ++ c :: back) (shifted front.length i) ≠
        policy.decisionAt (front ++ back) i →
      i = j ∧ policy.decisionAt (front ++ back) i = some .keep := by
  have extra := extra_insert front back c
  have top : ∀ s ∈ stages (Prod.fst : RetentionCandidate F32 × Nat → _) policy.rules,
      s.TopVerdict .keep := fun s hs => topVerdict_of_mem_stages Prod.fst hs
  obtain ⟨f, hf⟩ := Sieve.verdicts_disturbed top policy.defaultDecision extra (nodup_zipIdx _)
  refine ⟨unshifted front.length f.2, ?_⟩
  intro i hi changed
  obtain ⟨d, hd⟩ := exists_decisionAt policy (front ++ back) hi
  obtain ⟨a, ha⟩ := decisionAt_eq_some.mp hd
  obtain ⟨d', hd'⟩ := exists_decisionAt policy (front ++ c :: back) (i := shifted front.length i)
    ((shifted_lt hi).trans_eq (by simp; omega))
  obtain ⟨a', ha'⟩ := decisionAt_eq_some.mp hd'
  have shift := mem_verdicts_shifted policy front.length ha
  have mem := Sieve.mem_of_mem_verdicts shift
  obtain rfl : a = a' := by
    have first := List.mk_mem_zipIdx_iff_getElem?.mp (extra.sublist.subset mem)
    have second := List.mk_mem_zipIdx_iff_getElem?.mp (Sieve.mem_of_mem_verdicts ha')
    exact Option.some.inj (first.symm.trans second)
  have other : d ≠ d' := fun same => changed (by rw [hd, hd', same])
  obtain ⟨rfl, rfl⟩ := hf _ mem d d' shift ha' other
  exact ⟨(unshifted_shifted _ _).symm, hd⟩

/-- One more candidate `c` in a batch disturbs at most one other: some position `j` has the only
candidate with another decision, and that one was kept before.  Dropped, invalidated and deferred
candidates keep their decisions. -/
theorem evaluateBatch_insert (policy : RetentionPolicy) (front back : List (RetentionCandidate F32))
    (c : RetentionCandidate F32) :
    (∃ j, ∀ i < (front ++ back).length,
        policy.decisionAt (front ++ c :: back) (shifted front.length i) ≠
          policy.decisionAt (front ++ back) i →
        i = j ∧ policy.decisionAt (front ++ back) i = some .keep) ∧
      ∀ i < (front ++ back).length, ∀ d ≠ .keep,
        policy.decisionAt (front ++ back) i = some d →
        policy.decisionAt (front ++ c :: back) (shifted front.length i) = some d := by
  obtain ⟨j, hj⟩ := policy.disturbs_one front back c
  refine ⟨⟨j, hj⟩, ?_⟩
  intro i hi d hd before
  by_contra changed
  obtain ⟨-, kept⟩ := hj i hi (before ▸ changed)
  exact hd (Option.some.inj (before.symm.trans kept))

end RetentionPolicy

end MemoryPolicy
