import MemoryPolicy.StableSort

/-! Sieves: pipelines of stages that settle the entries of a pool.  A stage gives some entries of
the pool a verdict and passes the others on, in order.  An `each` stage looks at one entry at a
time; a `top` stage settles the first entries of the pool in a ranking.  The laws hold for every
type of entries and verdicts: no entry is lost or settled twice, stages compose, and a pool that
presents entries through a function is settled as the presented entries are. -/

namespace Sieve

open StableSort

variable {α β δ : Type*}

structure Ranking (α : Type*) where
  cmp : α → α → Ordering
  trans : Std.TransCmp cmp

def Ranking.comap (f : β → α) (r : Ranking α) : Ranking β where
  cmp a b := r.cmp (f a) (f b)
  trans :=
    have := r.trans
    { eq_swap := Std.OrientedCmp.eq_swap, isLE_trans := Std.TransCmp.isLE_trans }

/-- A stage of a sieve: `each` settles the entries to which it gives a verdict, `top` the first
`count` entries of the pool in a ranking, all with the same verdict. -/
inductive Stage (α δ : Type*)
  | each (verdict : α → Option δ)
  | top (ranking : Ranking α) (count : Nat) (verdict : δ)

namespace Stage

/-- The entries that a stage settles, with their verdicts, in the order settled. -/
def settled : Stage α δ → List α → List (α × δ)
  | .each verdict, pool => pool.filterMap fun a => (verdict a).map fun d => (a, d)
  | .top ranking count d, pool => ((sortBy ranking.cmp pool).take count).map fun a => (a, d)

def passed : Stage α δ → List α → List α
  | .each verdict, pool => pool.filter fun a => (verdict a).isNone
  | .top ranking count _, pool => (sortBy ranking.cmp pool).drop count

/-- The verdict of a stage on an entry alone; a `top` stage has none. -/
def single : Stage α δ → α → Option δ
  | .each verdict => verdict
  | .top _ _ _ => fun _ => none

def quota : Stage α δ → Nat
  | .each _ => 0
  | .top _ count _ => count

/-- The stage settles by rank with no verdict other than `k`. -/
def TopVerdict (k : δ) : Stage α δ → Prop
  | .each _ => True
  | .top _ _ d => d = k

def comap (f : β → α) : Stage α δ → Stage β δ
  | .each verdict => .each fun b => verdict (f b)
  | .top ranking count d => .top (ranking.comap f) count d

@[simp] theorem single_comap (f : β → α) (s : Stage α δ) (b : β) :
    (s.comap f).single b = s.single (f b) := by
  cases s <;> rfl

@[simp] theorem quota_comap (f : β → α) (s : Stage α δ) : (s.comap f).quota = s.quota := by
  cases s <;> rfl

@[simp] theorem topVerdict_comap (f : β → α) {k : δ} {s : Stage α δ} :
    (s.comap f).TopVerdict k ↔ s.TopVerdict k := by
  cases s <;> rfl

@[simp] theorem settled_nil (s : Stage α δ) : s.settled [] = [] := by
  cases s <;> simp [settled]

@[simp] theorem passed_nil (s : Stage α δ) : s.passed [] = [] := by
  cases s <;> simp [passed]

/-- A stage settles or passes on each entry of its pool exactly once. -/
theorem perm (s : Stage α δ) (pool : List α) :
    ((s.settled pool).map Prod.fst ++ s.passed pool).Perm pool := by
  cases s with
  | each verdict =>
    induction pool with
    | nil => exact List.Perm.refl _
    | cons a pool ih =>
      cases h : verdict a with
      | none =>
        simp only [settled, passed, List.filterMap_cons, List.filter_cons, h, Option.map_none,
          Option.isNone_none, if_true] at ih ⊢
        exact List.perm_middle.trans (ih.cons a)
      | some d => simpa [settled, passed, h] using ih
  | top ranking count d =>
    simp only [settled, passed, List.map_map, Function.comp_def, List.map_id']
    rw [List.take_append_drop]
    exact sortBy_perm _ _

theorem settled_ite (p : α → Prop) [DecidablePred p] (d : δ) (pool : List α) :
    (each fun a => if p a then some d else none).settled pool =
      (pool.filter fun a => p a).map fun a => (a, d) := by
  rw [settled, ← List.filterMap_eq_map, List.filterMap_filter]
  congr 1
  funext a
  by_cases h : p a <;> simp [h]

theorem passed_ite (p : α → Prop) [DecidablePred p] (d : δ) (pool : List α) :
    (each fun a => if p a then some d else none).passed pool = pool.filter fun a => ¬ p a := by
  apply List.filter_congr
  intro a _
  by_cases h : p a <;> simp [h]

theorem settled_comap (f : β → α) (s : Stage α δ) (pool : List β) :
    ((s.comap f).settled pool).map (Prod.map f id) = s.settled (pool.map f) := by
  cases s with
  | each verdict =>
    simp [comap, settled, List.map_filterMap, List.filterMap_map, Function.comp_def]
  | top ranking count d =>
    simp [comap, settled, Ranking.comap, sortBy_map, List.map_take, Function.comp_def]

theorem passed_comap (f : β → α) (s : Stage α δ) (pool : List β) :
    ((s.comap f).passed pool).map f = s.passed (pool.map f) := by
  cases s with
  | each verdict => simp [comap, passed, List.filter_map, Function.comp_def]
  | top ranking count d => simp [comap, passed, Ranking.comap, sortBy_map, List.map_drop]

end Stage

def settled : List (Stage α δ) → List α → List (α × δ)
  | [], _ => []
  | s :: stages, pool => s.settled pool ++ settled stages (s.passed pool)

def passed : List (Stage α δ) → List α → List α
  | [], pool => pool
  | s :: stages, pool => passed stages (s.passed pool)

/-- The verdict on each entry of a pool: that of the stage that settles it, or the default. -/
def verdicts (stages : List (Stage α δ)) (default : δ) (pool : List α) : List (α × δ) :=
  settled stages pool ++ (passed stages pool).map fun a => (a, default)

theorem verdicts_cons (s : Stage α δ) (stages : List (Stage α δ)) (default : δ) (pool : List α) :
    verdicts (s :: stages) default pool =
      s.settled pool ++ verdicts stages default (s.passed pool) := by
  simp only [verdicts, settled, passed, List.append_assoc]

@[simp] theorem settled_nil (stages : List (Stage α δ)) : settled stages [] = [] := by
  induction stages with
  | nil => rfl
  | cons s stages ih => simp [settled, ih]

@[simp] theorem passed_nil (stages : List (Stage α δ)) : passed stages [] = [] := by
  induction stages with
  | nil => rfl
  | cons s stages ih => simp [passed, ih]

theorem settled_append (s t : List (Stage α δ)) (pool : List α) :
    settled (s ++ t) pool = settled s pool ++ settled t (passed s pool) := by
  induction s generalizing pool with
  | nil => rfl
  | cons stage s ih => simp [settled, passed, ih]

theorem passed_append (s t : List (Stage α δ)) (pool : List α) :
    passed (s ++ t) pool = passed t (passed s pool) := by
  induction s generalizing pool with
  | nil => rfl
  | cons stage s ih => simp [passed, ih]

theorem verdicts_append (front back : List (Stage α δ)) (default : δ) (pool : List α) :
    verdicts (front ++ back) default pool =
      settled front pool ++ verdicts back default (passed front pool) := by
  simp only [verdicts, settled_append, passed_append, List.append_assoc]

theorem settled_passed_perm (stages : List (Stage α δ)) (pool : List α) :
    ((settled stages pool).map Prod.fst ++ passed stages pool).Perm pool := by
  induction stages generalizing pool with
  | nil => exact List.Perm.refl _
  | cons s stages ih =>
    rw [settled, passed, List.map_append, List.append_assoc]
    exact ((ih (s.passed pool)).append_left _).trans (s.perm pool)

theorem mem_of_mem_settled {stages : List (Stage α δ)} {pool : List α} {p : α × δ}
    (h : p ∈ settled stages pool) : p.1 ∈ pool :=
  (settled_passed_perm stages pool).subset (List.mem_append_left _ (List.mem_map_of_mem h))

theorem mem_of_mem_passed {stages : List (Stage α δ)} {pool : List α} {a : α}
    (h : a ∈ passed stages pool) : a ∈ pool :=
  (settled_passed_perm stages pool).subset (List.mem_append_right _ h)

/-- Every entry of the pool has exactly one verdict. -/
theorem verdicts_perm (stages : List (Stage α δ)) (default : δ) (pool : List α) :
    ((verdicts stages default pool).map Prod.fst).Perm pool := by
  simpa [verdicts, Function.comp_def] using settled_passed_perm stages pool

theorem mem_of_mem_verdicts {stages : List (Stage α δ)} {default : δ} {pool : List α} {a : α}
    {d : δ} (h : (a, d) ∈ verdicts stages default pool) : a ∈ pool :=
  (verdicts_perm stages default pool).subset (List.mem_map_of_mem h)

theorem settled_comap (f : β → α) (stages : List (Stage α δ)) (pool : List β) :
    (settled (stages.map (Stage.comap f)) pool).map (Prod.map f id) =
      settled stages (pool.map f) := by
  induction stages generalizing pool with
  | nil => rfl
  | cons s stages ih =>
    simp only [settled, List.map_cons, List.map_append, s.settled_comap, ih, s.passed_comap]

theorem passed_comap (f : β → α) (stages : List (Stage α δ)) (pool : List β) :
    (passed (stages.map (Stage.comap f)) pool).map f = passed stages (pool.map f) := by
  induction stages generalizing pool with
  | nil => rfl
  | cons s stages ih => simp only [passed, List.map_cons, ih, s.passed_comap]

theorem verdicts_comap (f : β → α) (stages : List (Stage α δ)) (default : δ) (pool : List β) :
    (verdicts (stages.map (Stage.comap f)) default pool).map (Prod.map f id) =
      verdicts stages default (pool.map f) := by
  simp [verdicts, settled_comap, ← passed_comap, Function.comp_def]

end Sieve
