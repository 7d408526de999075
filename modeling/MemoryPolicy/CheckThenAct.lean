import MemoryPolicy.Transition

/-! The check-then-act pattern, for one resource.  A client checks a flag; where the flag is down
it is admitted, writes one copy and raises the flag, in either order.  Each of the three is one
step, and the steps of several clients interleave.  The copies stay one when nobody is admitted
while another client is between its admission and its raising of the flag, and only then. -/

namespace CheckThenAct

variable {ι : Type*}

inductive Phase
  | idle
  | admitted
  | wrote
  | raised
deriving DecidableEq

def Phase.Owes : Phase → Prop
  | .admitted | .raised => True
  | .idle | .wrote => False

def Phase.Open : Phase → Prop
  | .admitted | .wrote => True
  | .idle | .raised => False

structure State (ι : Type*) where
  phase : ι → Phase
  flag : Bool
  copies : Nat

theorem State.update_same [DecidableEq ι] {s : State ι} {i : ι} {p : Phase} (h : s.phase i = p) :
    { s with phase := Function.update s.phase i p } = s := by
  simp [← h]

inductive Action
  | enter
  | write
  | raise

inductive Step [DecidableEq ι] (s : State ι) : Action → State ι → Prop
  | enter (i : ι) (idle : s.phase i = .idle) (down : s.flag = false) :
      Step s .enter { s with phase := Function.update s.phase i .admitted }
  | write (i : ι) (admitted : s.phase i = .admitted) :
      Step s .write { s with phase := Function.update s.phase i .wrote, copies := s.copies + 1 }
  | writeLast (i : ι) (raised : s.phase i = .raised) :
      Step s .write { s with phase := Function.update s.phase i .idle, copies := s.copies + 1 }
  | raise (i : ι) (admitted : s.phase i = .admitted) :
      Step s .raise { s with phase := Function.update s.phase i .raised, flag := true }
  | raiseLast (i : ι) (wrote : s.phase i = .wrote) :
      Step s .raise { s with phase := Function.update s.phase i .idle, flag := true }

/-- Nobody is between an admission and the raising of the flag. -/
def State.Alone (s : State ι) : Prop := ∀ i, ¬ (s.phase i).Open

/-! ### One at a time -/

/-- The flag and the copies that go with a client's phase when all others are idle. -/
def Phase.Accounts : Phase → Bool → Nat → Prop
  | .idle, flag, copies => copies = flag.toNat
  | .admitted, flag, copies => flag = false ∧ copies = 0
  | .wrote, flag, copies => flag = false ∧ copies = 1
  | .raised, flag, copies => flag = true ∧ copies = 0

/-- At most one client is not idle, and its phase accounts for the flag and the copies. -/
structure Exclusive (s : State ι) : Prop where
  one : ∀ i j, s.phase i ≠ .idle → s.phase j ≠ .idle → i = j
  accounts : ∀ i, s.phase i ≠ .idle → (s.phase i).Accounts s.flag s.copies
  idle : (∀ i, s.phase i = .idle) → s.copies = s.flag.toNat

namespace Exclusive

variable {s t : State ι} {a : Action}

theorem of_rest_idle {i : ι} (rest : ∀ j ≠ i, s.phase j = .idle)
    (own : (s.phase i).Accounts s.flag s.copies) : Exclusive s where
  one j k hj hk := by
    have here : ∀ j, s.phase j ≠ .idle → j = i := fun j hj => by_contra fun h => hj (rest j h)
    rw [here j hj, here k hk]
  accounts j hj := by
    by_cases h : j = i
    · exact h ▸ own
    · exact absurd (rest j h) hj
  idle all := by
    rw [all i] at own
    exact own

theorem rest_idle (h : Exclusive s) {i j : ι} (hi : s.phase i ≠ .idle) (hj : j ≠ i) :
    s.phase j = .idle :=
  by_contra fun busy => hj (h.one j i busy hi)

theorem all_idle (h : Exclusive s) (alone : s.Alone) (down : s.flag = false) (i : ι) :
    s.phase i = .idle := by
  have own := h.accounts i
  have closed := alone i
  cases hp : s.phase i with
  | idle => rfl
  | admitted => simp [hp, Phase.Open] at closed
  | wrote => simp [hp, Phase.Open] at closed
  | raised => simp [hp, Phase.Accounts, down] at own

/-- A client that is not idle moves on, to a phase that accounts for the new flag and copies. -/
theorem of_update [DecidableEq ι] (h : Exclusive s) {i : ι} {p : Phase} (busy : s.phase i ≠ .idle)
    (phase : t.phase = Function.update s.phase i p) (own : p.Accounts t.flag t.copies) :
    Exclusive t := by
  apply of_rest_idle (i := i)
  · intro j hj
    rw [phase, Function.update_of_ne hj]
    exact h.rest_idle busy hj
  · rw [phase, Function.update_self]
    exact own

theorem copies_le_one (h : Exclusive s) : s.copies ≤ 1 := by
  by_cases busy : ∃ i, s.phase i ≠ .idle
  · obtain ⟨i, hi⟩ := busy
    have own := h.accounts i hi
    cases hp : s.phase i with
    | idle => exact absurd hp hi
    | admitted => simp [hp, Phase.Accounts] at own; omega
    | wrote => simp [hp, Phase.Accounts] at own; omega
    | raised => simp [hp, Phase.Accounts] at own; omega
  · rw [h.idle (by simpa using busy)]
    exact Bool.toNat_le _

/-- Admissions one at a time keep the clients exclusive. -/
theorem step [DecidableEq ι] (h : Exclusive s) (taken : Step s a t) (alone : a = .enter → s.Alone) :
    Exclusive t := by
  cases taken with
  | enter i idle down =>
    have all := h.all_idle (alone rfl) down
    apply of_rest_idle (i := i)
    · intro j hj
      simp [hj, all j]
    · simp [Phase.Accounts, down, h.idle all]
  | write i admitted =>
    have busy : s.phase i ≠ .idle := by simp [admitted]
    have own := h.accounts i busy
    rw [admitted] at own
    exact h.of_update busy rfl (by simpa [Phase.Accounts] using own)
  | writeLast i raised =>
    have busy : s.phase i ≠ .idle := by simp [raised]
    have own := h.accounts i busy
    rw [raised] at own
    exact h.of_update busy rfl (by simp [Phase.Accounts, own.1, own.2])
  | raise i admitted =>
    have busy : s.phase i ≠ .idle := by simp [admitted]
    have own := h.accounts i busy
    rw [admitted] at own
    exact h.of_update busy rfl (by simp [Phase.Accounts, own.2])
  | raiseLast i wrote =>
    have busy : s.phase i ≠ .idle := by simp [wrote]
    have own := h.accounts i busy
    rw [wrote] at own
    exact h.of_update busy rfl (by simp [Phase.Accounts, own.2])

end Exclusive

/-! ### Two at once -/

def Phase.Backed : Phase → Bool → Nat → Prop
  | .raised, flag, _ => flag = true
  | .wrote, _, copies => 1 ≤ copies
  | _, _, _ => True

theorem Phase.Backed.mono {p : Phase} {flag flag' : Bool} {copies copies' : Nat}
    (h : p.Backed flag copies) (flags : flag = true → flag' = true) (more : copies ≤ copies') :
    p.Backed flag' copies' := by
  cases p with
  | raised => exact flags h
  | wrote => exact Nat.le_trans h more
  | _ => trivial

/-- A raised client has raised the flag, and a client that wrote has left a copy. -/
def Sound (s : State ι) : Prop := ∀ i, (s.phase i).Backed s.flag s.copies

theorem Sound.of_own {s t : State ι} (h : Sound s) {i : ι}
    (others : ∀ j ≠ i, t.phase j = s.phase j) (flags : s.flag = true → t.flag = true)
    (more : s.copies ≤ t.copies) (own : (t.phase i).Backed t.flag t.copies) : Sound t := fun j => by
  by_cases hj : j = i
  · exact hj ▸ own
  · rw [others j hj]
    exact (h j).mono flags more

theorem Sound.step [DecidableEq ι] {s t : State ι} {a : Action} (h : Sound s)
    (taken : Step s a t) : Sound t := by
  cases taken with
  | enter i =>
    exact h.of_own (fun j hj => Function.update_of_ne hj ..) id (Nat.le_refl _)
      (by simp [Phase.Backed])
  | write i =>
    exact h.of_own (fun j hj => Function.update_of_ne hj ..) id (Nat.le_succ _)
      (by simp [Phase.Backed])
  | writeLast i =>
    exact h.of_own (fun j hj => Function.update_of_ne hj ..) id (Nat.le_succ _)
      (by simp [Phase.Backed])
  | raise i =>
    exact h.of_own (fun j hj => Function.update_of_ne hj ..) (fun _ => rfl) (Nat.le_refl _)
      (by simp [Phase.Backed])
  | raiseLast i =>
    exact h.of_own (fun j hj => Function.update_of_ne hj ..) (fun _ => rfl) (Nat.le_refl _)
      (by simp [Phase.Backed])

/-- Two copies are written or owed. -/
inductive Doubled (s : State ι) : Prop
  | written (h : 2 ≤ s.copies)
  | both (i : ι) (owes : (s.phase i).Owes) (h : 1 ≤ s.copies)
  | owed (i j : ι) (other : i ≠ j) (first : (s.phase i).Owes) (second : (s.phase j).Owes)

namespace Doubled

variable {s t : State ι}

theorem of_le (h : Doubled s) (copies : s.copies ≤ t.copies)
    (owes : ∀ j, (s.phase j).Owes → (t.phase j).Owes) : Doubled t := by
  cases h with
  | written h => exact .written (Nat.le_trans h copies)
  | both i debt h => exact .both i (owes i debt) (Nat.le_trans h copies)
  | owed i j other first second => exact .owed i j other (owes i first) (owes j second)

theorem of_copy (h : Doubled s) (i : ι) (copies : t.copies = s.copies + 1)
    (owes : ∀ j ≠ i, (s.phase j).Owes → (t.phase j).Owes) : Doubled t := by
  cases h with
  | written h => exact .written (by omega)
  | both j debt h => exact .written (by omega)
  | owed j k other first second =>
    by_cases hj : j = i
    · exact .both k (owes k (fun hk => other (hj.trans hk.symm)) second) (by omega)
    · exact .both j (owes j hj first) (by omega)

theorem step [DecidableEq ι] {a : Action} (h : Doubled s) (taken : Step s a t) : Doubled t := by
  cases taken with
  | enter i idle =>
    refine h.of_le (Nat.le_refl _) ?_
    intro j debt
    by_cases hj : j = i
    · simp [hj, idle, Phase.Owes] at debt
    · simpa [hj] using debt
  | write i => exact h.of_copy i rfl fun j hj debt => by simpa [hj] using debt
  | writeLast i => exact h.of_copy i rfl fun j hj debt => by simpa [hj] using debt
  | raise i =>
    refine h.of_le (Nat.le_refl _) ?_
    intro j debt
    by_cases hj : j = i
    · simp [hj, Phase.Owes]
    · simpa [hj] using debt
  | raiseLast i wrote =>
    refine h.of_le (Nat.le_refl _) ?_
    intro j debt
    by_cases hj : j = i
    · simp [hj, wrote, Phase.Owes] at debt
    · simpa [hj] using debt

theorem two_le (h : Doubled s) (idle : ∀ i, s.phase i = .idle) : 2 ≤ s.copies := by
  cases h with
  | written h => exact h
  | both i owes => simp [idle i, Phase.Owes] at owes
  | owed i _ _ first => simp [idle i, Phase.Owes] at first

end Doubled

/-- An admission beside an open client leads to two copies. -/
theorem Sound.doubled [DecidableEq ι] {s t : State ι} (h : Sound s) (taken : Step s .enter t)
    (contested : ¬ s.Alone) : Doubled t := by
  obtain ⟨j, hj⟩ := not_forall_not.mp contested
  cases taken with
  | enter i idle =>
    have other : j ≠ i := fun same => by simp [same, idle, Phase.Open] at hj
    cases hp : s.phase j with
    | idle => simp [hp, Phase.Open] at hj
    | raised => simp [hp, Phase.Open] at hj
    | admitted =>
      have owes : (s.phase j).Owes := by simp [hp, Phase.Owes]
      exact .owed i j other.symm (by simp [Phase.Owes]) (by simpa [other] using owes)
    | wrote => exact .both i (by simp [Phase.Owes]) (by simpa [hp, Phase.Backed] using h j)

theorem Exclusive.down {s : State ι} (h : Exclusive s) (contested : ¬ s.Alone) :
    s.flag = false := by
  obtain ⟨j, hj⟩ := not_forall_not.mp contested
  cases hp : s.phase j with
  | idle => simp [hp, Phase.Open] at hj
  | raised => simp [hp, Phase.Open] at hj
  | admitted =>
    have own := h.accounts j (by simp [hp])
    rw [hp] at own
    exact own.1
  | wrote =>
    have own := h.accounts j (by simp [hp])
    rw [hp] at own
    exact own.1

end CheckThenAct
