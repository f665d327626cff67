import CsappLabs.Foundation.Transition
import CsappLabs.Shell.Jobs

/-!
# Job ids

`addjob` counts `nextjid` up and starts again with 1 behind `MAXJOBS`;
`deletejob` sets it behind the largest job id.  Neither looks whether a job has
the next id already.
-/

namespace CsappLabs.Shell

open CsappLabs.Foundation

variable {jobs : Jobs} {t t' : Table} {i j : Fin maxJobs} {pid nextjid next : Int} {state : JobState}
  {cmdline : CString}

def pid2jid (jobs : Jobs) (pid : Int) : Int :=
  if pid < 1 then 0
  else
    match findJob jobs (·.pid = pid) with
    | some i => (jobs i).jid
    | none => 0

inductive Call where
  | add (pid : Int) (state : JobState) (cmdline : CString)
  | delete (pid : Int)

namespace Table

def call (t : Table) : Call → Option Table
  | .add pid state cmdline => some (addjob t pid state cmdline).2
  | .delete pid => some (deletejob t pid).2

/-- A process that becomes a job is not one already. -/
def Distinct (t : Table) : Call → Prop
  | .add pid _ _ => ∀ i, (t.jobs i).pid ≠ pid
  | .delete _ => True

def InRange (t : Table) : Call → Prop
  | .add pid _ _ => 1 ≤ pid → (∃ i, (t.jobs i).pid = 0) → t.nextjid + 1 < 2 ^ 31
  | .delete pid => (deletejob t pid).2.nextjid < 2 ^ 31

/-- When the call adds a job, no job has the next id. -/
def Fresh (t : Table) : Call → Prop
  | .add pid _ _ => 1 ≤ pid → (∃ i, (t.jobs i).pid = 0) →
      ∀ j, (t.jobs j).pid ≠ 0 → (t.jobs j).jid ≠ t.nextjid
  | .delete _ => True

instance (t : Table) : (c : Call) → Decidable (t.Distinct c)
  | .add pid _ _ => inferInstanceAs (Decidable (∀ i, (t.jobs i).pid ≠ pid))
  | .delete _ => inferInstanceAs (Decidable True)

instance (t : Table) : (c : Call) → Decidable (t.InRange c)
  | .add pid _ _ => inferInstanceAs (Decidable (1 ≤ pid → (∃ i, (t.jobs i).pid = 0) → _))
  | .delete _ => inferInstanceAs (Decidable (_ < _))

instance (t : Table) : (c : Call) → Decidable (t.Fresh c)
  | .add pid _ _ => inferInstanceAs (Decidable (1 ≤ pid → (∃ i, (t.jobs i).pid = 0) →
      ∀ j, (t.jobs j).pid ≠ 0 → (t.jobs j).jid ≠ t.nextjid))
  | .delete _ => inferInstanceAs (Decidable True)

end Table

def UniqueJids (jobs : Jobs) : Prop :=
  ∀ i j, (jobs i).pid ≠ 0 → (jobs j).pid ≠ 0 → (jobs i).jid = (jobs j).jid → i = j

instance (jobs : Jobs) : Decidable (UniqueJids jobs) :=
  inferInstanceAs (Decidable (∀ _ _, _ → _ → _ → _))

structure InverseJids (jobs : Jobs) : Prop where
  job : ∀ i, (jobs i).pid ≠ 0 → getjobjid jobs (pid2jid jobs (jobs i).pid) = some i
  jid : ∀ i jid, getjobjid jobs jid = some i → pid2jid jobs (jobs i).pid = jid

/-! ## The table -/

structure IdsOk (jobs : Jobs) (nextjid : Int) : Prop where
  pids : ∀ i j, (jobs i).pid ≠ 0 → (jobs i).pid = (jobs j).pid → i = j
  jids : UniqueJids jobs
  live : ∀ i, (jobs i).pid ≠ 0 → 1 ≤ (jobs i).pid ∧ 1 ≤ (jobs i).jid
  free : ∀ i, (jobs i).pid = 0 → (jobs i).jid = 0
  next : 1 ≤ nextjid

theorem IdsOk.init : IdsOk initjobs 1 where
  pids := fun _ _ h => absurd rfl h
  jids := fun _ _ h => absurd rfl h
  live := fun _ h => absurd rfl h
  free := fun _ _ => rfl
  next := Int.le_refl 1

theorem findJob_unique {p : Job → Bool} (hp : p (jobs i))
    (h : ∀ j, p (jobs j) → j = i) : findJob jobs p = some i := by
  cases hfind : findJob jobs p with
  | none => exact absurd hp (findJob_none.mp hfind i)
  | some j => rw [h j (findJob_some hfind)]

theorem maxjid_nonneg (jobs : Jobs) : 0 ≤ maxjid jobs := by
  have hfold : ∀ (l : List (Fin maxJobs)) (m : Int), 0 ≤ m →
      0 ≤ l.foldl (fun m i => if (jobs i).jid > m then (jobs i).jid else m) m := by
    intro l
    induction l with
    | nil => exact fun _ hm => hm
    | cons i l ih =>
        intro m hm
        refine ih _ ?_
        dsimp only
        split <;> omega
  exact hfold _ 0 (Int.le_refl 0)

theorem IdsOk.pid2jid (h : IdsOk jobs nextjid) (hi : (jobs i).pid ≠ 0) :
    pid2jid jobs (jobs i).pid = (jobs i).jid := by
  have hfind : findJob jobs (·.pid = (jobs i).pid) = some i := by
    refine findJob_unique (by simp) fun j hj => ?_
    exact (h.pids i j hi (of_decide_eq_true hj).symm).symm
  rw [Shell.pid2jid, if_neg (Int.not_lt.mpr (h.live i hi).1), hfind]

theorem IdsOk.getjobjid (h : IdsOk jobs nextjid) (hi : (jobs i).pid ≠ 0) :
    getjobjid jobs (jobs i).jid = some i := by
  have hpos := (h.live i hi).2
  rw [Shell.getjobjid, if_neg (Int.not_lt.mpr hpos)]
  refine findJob_unique (by simp) fun j hj => ?_
  have hjid : (jobs j).jid = (jobs i).jid := of_decide_eq_true hj
  refine h.jids j i (fun hfree => ?_) hi hjid
  rw [h.free j hfree] at hjid
  omega

theorem IdsOk.inverse (h : IdsOk jobs nextjid) : InverseJids jobs where
  job := fun i hi => by rw [h.pid2jid hi, h.getjobjid hi]
  jid := fun i jid hget => by
    obtain ⟨hpos, hjid⟩ := getjobjid_some hget
    have hlive : (jobs i).pid ≠ 0 := by
      intro hfree
      rw [h.free i hfree] at hjid
      omega
    rw [h.pid2jid hlive, hjid]

/-! ## One call -/

theorem addjob_next (h : 1 ≤ t.nextjid) (pid : Int) (state : JobState) (cmdline : CString) :
    1 ≤ (addjob t pid state cmdline).2.nextjid := by
  unfold addjob
  split
  · exact h
  · split
    · dsimp only
      split <;> omega
    · exact h

theorem deletejob_next (h : 1 ≤ t.nextjid) (pid : Int) : 1 ≤ (deletejob t pid).2.nextjid := by
  unfold deletejob
  split
  · exact h
  · split
    · have hmax := maxjid_nonneg (Function.update t.jobs ‹_› clearjob)
      dsimp only
      omega
    · exact h

theorem addjob_small (hpid : ¬1 ≤ pid) : (addjob t pid state cmdline).2 = t := by
  rw [addjob, if_pos (Int.not_le.mp hpid)]

theorem deletejob_small (hpid : ¬1 ≤ pid) : (deletejob t pid).2 = t := by
  rw [deletejob, if_pos (Int.not_le.mp hpid)]

theorem IdsOk.insert (h : IdsOk jobs nextjid) (hpid : 1 ≤ pid)
    (hdistinct : ∀ j, (jobs j).pid ≠ pid)
    (hfresh : ∀ j, (jobs j).pid ≠ 0 → (jobs j).jid ≠ nextjid) (hnext : 1 ≤ next) :
    IdsOk (Function.update jobs i ⟨pid, nextjid, state, cmdline⟩) next where
  pids := by
    intro a b ha heq
    by_cases hai : a = i <;> by_cases hbi : b = i
    · rw [hai, hbi]
    · subst hai
      rw [Function.update_self, Function.update_of_ne hbi] at heq
      exact absurd heq.symm (hdistinct b)
    · subst hbi
      rw [Function.update_self, Function.update_of_ne hai] at heq
      exact absurd heq (hdistinct a)
    · rw [Function.update_of_ne hai] at ha
      rw [Function.update_of_ne hai, Function.update_of_ne hbi] at heq
      exact h.pids a b ha heq
  jids := by
    intro a b ha hb heq
    by_cases hai : a = i <;> by_cases hbi : b = i
    · rw [hai, hbi]
    · subst hai
      rw [Function.update_of_ne hbi] at hb
      rw [Function.update_self, Function.update_of_ne hbi] at heq
      exact absurd heq.symm (hfresh b hb)
    · subst hbi
      rw [Function.update_of_ne hai] at ha
      rw [Function.update_self, Function.update_of_ne hai] at heq
      exact absurd heq (hfresh a ha)
    · rw [Function.update_of_ne hai] at ha
      rw [Function.update_of_ne hbi] at hb
      rw [Function.update_of_ne hai, Function.update_of_ne hbi] at heq
      exact h.jids a b ha hb heq
  live := by
    intro a ha
    by_cases hai : a = i
    · subst hai
      rw [Function.update_self]
      exact ⟨hpid, h.next⟩
    · rw [Function.update_of_ne hai] at ha ⊢
      exact h.live a ha
  free := by
    intro a ha
    by_cases hai : a = i
    · subst hai
      rw [Function.update_self] at ha
      exact absurd (show pid = 0 from ha) (by omega)
    · rw [Function.update_of_ne hai] at ha ⊢
      exact h.free a ha
  next := hnext

theorem IdsOk.clear (h : IdsOk jobs nextjid) (hnext : 1 ≤ next) :
    IdsOk (Function.update jobs i clearjob) next := by
  have hother : ∀ a, (Function.update jobs i clearjob a).pid ≠ 0 → a ≠ i := by
    rintro a ha rfl
    rw [Function.update_self] at ha
    exact ha rfl
  refine ⟨fun a b ha heq => ?_, fun a b ha hb heq => ?_, fun a ha => ?_, fun a ha => ?_, hnext⟩
  · have hb : b ≠ i := hother b (heq ▸ ha)
    have hai := hother a ha
    rw [Function.update_of_ne hai] at ha
    rw [Function.update_of_ne hai, Function.update_of_ne hb] at heq
    exact h.pids a b ha heq
  · have hai := hother a ha
    have hbi := hother b hb
    rw [Function.update_of_ne hai] at ha
    rw [Function.update_of_ne hbi] at hb
    rw [Function.update_of_ne hai, Function.update_of_ne hbi] at heq
    exact h.jids a b ha hb heq
  · have hai := hother a ha
    rw [Function.update_of_ne hai] at ha ⊢
    exact h.live a ha
  · by_cases hai : a = i
    · subst hai
      rw [Function.update_self]
      rfl
    · rw [Function.update_of_ne hai] at ha ⊢
      exact h.free a ha

theorem IdsOk.call {c : Call} (h : IdsOk t.jobs t.nextjid) (hdistinct : t.Distinct c) (hfresh : t.Fresh c)
    (hcall : t.call c = some t') : IdsOk t'.jobs t'.nextjid := by
  cases c with
  | add pid state cmdline =>
      cases hcall
      by_cases hpid : 1 ≤ pid
      · have hnext := addjob_next h.next pid state cmdline
        rcases addjob_cases t hpid state cmdline with ⟨i, next, hfree, heq⟩ | ⟨-, heq⟩
        · rw [heq] at hnext ⊢
          exact h.insert hpid hdistinct (hfresh hpid ⟨i, hfree⟩) hnext
        · rw [heq]
          exact h
      · rw [addjob_small hpid]
        exact h
  | delete pid =>
      cases hcall
      by_cases hpid : 1 ≤ pid
      · have hnext := deletejob_next h.next pid
        rcases deletejob_cases t hpid with ⟨i, next, -, heq⟩ | ⟨-, heq⟩
        · rw [heq] at hnext ⊢
          exact h.clear hnext
        · rw [heq]
          exact h
      · rw [deletejob_small hpid]
        exact h

/-- A job with an id that is in use leaves two jobs with that id. -/
theorem fresh_of_unique {c : Call} (hcall : t.call c = some t') (h : UniqueJids t'.jobs) :
    t.Fresh c := by
  cases c with
  | add pid state cmdline =>
      intro hpid hfree j hj heq
      cases hcall
      obtain ⟨i, hi⟩ := hfree
      rcases addjob_cases t hpid state cmdline with ⟨k, next, hk, hadd⟩ | ⟨hfull, -⟩
      · rw [hadd] at h
        have hne : j ≠ k := fun hjk => hj (hjk ▸ hk)
        have hjk := h j k
        dsimp only at hjk
        rw [Function.update_self, Function.update_of_ne hne] at hjk
        exact hne (hjk hj (show pid ≠ 0 by omega) heq)
      · exact hfull i hi
  | delete pid => trivial

def KeepsIds (t : Table) (c : Call) : Prop := t.Distinct c ∧ t.InRange c ∧ t.Fresh c

instance (t : Table) (c : Call) : Decidable (KeepsIds t c) := inferInstanceAs (Decidable (_ ∧ _))

theorem idsOk_of_run (hrun : Run Table.call KeepsIds ⟨initjobs, 1⟩ t) : IdsOk t.jobs t.nextjid :=
  hrun.invariant (fun t => IdsOk t.jobs t.nextjid) .init fun _ _ _ h hok hcall => h.call hok.1 hok.2.2 hcall

/-- In a run of calls that never add a job while its id is in use, the ids of
the jobs are different, and `getjobjid` and `pid2jid` are inverse to each
other.  The next call leaves the ids different only if it does not either. -/
theorem jids_unique (hrun : Run Table.call KeepsIds ⟨initjobs, 1⟩ t) :
    UniqueJids t.jobs ∧ InverseJids t.jobs ∧
      ∀ c t', t.Distinct c → t.call c = some t' → (UniqueJids t'.jobs ↔ t.Fresh c) := by
  have h := idsOk_of_run hrun
  refine ⟨h.jids, h.inverse, fun c t' hdistinct hcall => ⟨fresh_of_unique hcall, fun hfresh => ?_⟩⟩
  exact (h.call hdistinct hfresh hcall).jids

theorem jids_unique_hole :
    ∃ t, replay Table.call KeepsIds ⟨initjobs, 1⟩ [.add 50 .bg ⟨[], by simp⟩, .add 51 .bg ⟨[], by simp⟩,
        .delete 50, .add 52 .st ⟨[], by simp⟩] = some t ∧ UniqueJids t.jobs ∧ InverseJids t.jobs ∧
      ∀ c t', t.Distinct c → t.call c = some t' → (UniqueJids t'.jobs ↔ t.Fresh c) := by
  have hsome : (replay Table.call KeepsIds ⟨initjobs, 1⟩ [.add 50 .bg ⟨[], by simp⟩, .add 51 .bg ⟨[], by simp⟩,
      .delete 50, .add 52 .st ⟨[], by simp⟩]).isSome := by
    decide +kernel
  obtain ⟨t, ht⟩ := Option.isSome_iff_exists.mp hsome
  exact ⟨t, ht, jids_unique (Run.start.of_replay ht)⟩

/-- Fifteen jobs, of which the second and the third end: two more jobs get the
ids 16 and 1. -/
theorem jid_twice :
    ¬∀ t, Run Table.call Table.Distinct ⟨initjobs, 1⟩ t → UniqueJids t.jobs := by
  intro hall
  have hrun : (replay Table.call Table.Distinct ⟨initjobs, 1⟩
      ((List.range 15).map (fun n => .add (100 + n) .bg ⟨[], by simp⟩) ++
        [.delete 101, .delete 102, .add 115 .bg ⟨[], by simp⟩, .add 116 .bg ⟨[], by simp⟩])).map
      (fun t => decide (UniqueJids t.jobs)) = some false := by
    decide +kernel
  obtain ⟨t, ht, hfalse⟩ := Option.map_eq_some_iff.mp hrun
  exact of_decide_eq_false hfalse (hall t (Run.start.of_replay ht))

end CsappLabs.Shell
