import CsappLabs.Shell.Model
import Mathlib.Data.List.Nodup
import Mathlib.Tactic.Tauto

/-!
# What every run of the shell keeps

Once a child exists `SIGCHLD` is blocked, except in `sigsuspend`: the handler
finds something to do only there.  The entries of the table name different
children.
-/

namespace CsappLabs.Shell

open CsappLabs.Foundation

variable {s s' : Tsh} {e : Event} {line : Line} {i j : Fin maxJobs} {pid : Int} {mask : Sigset}
  {c : Child}

inductive Moves (s : Tsh) : Event → Tsh → Prop
  | read (line : Line) (idle : s.handler = none) (pc : s.pc = .prompt) :
      Moves s (.read line) (s.read line)
  | advance (s' : Tsh) (idle : s.handler = none) (next : s.advance s.pc = some s') :
      Moves s .advance s'
  | forked (pid : Int) (line : Line) (idle : s.handler = none) (pc : s.pc = .fork line)
      (pos : 1 ≤ pid) (fresh : pid ∉ s.children.map Child.pid) :
      Moves s (.forked pid) { s with
        children := ⟨pid, .running⟩ :: s.children
        pc := if line.bg then .add line pid else .clear line pid }
  | wake (mask : Sigset) (idle : s.handler = none) (pc : s.pc = .suspended mask) :
      Moves s .wake { s with blocked := mask, pc := .loop }
  | deliver (idle : s.handler = none) (pending : s.pending) (unblocked : sigchld ∉ s.blocked) :
      Moves s .deliver { s with
        handler := some s.blocked
        blocked := insert sigchld s.blocked
        pending := false }
  | reap (c : Child) (saved : Sigset) (busy : s.handler = some saved) (mem : c ∈ s.children)
      (reportable : c.reportable) : Moves s (.reap c.pid) ((s.collect c).handle c)
  | handlerReturn (saved : Sigset) (busy : s.handler = some saved) :
      Moves s .handlerReturn { s with handler := none, blocked := saved }
  | child (pid : Int) (event : ChildEvent) (proc : Proc) :
      Moves s (.child pid event) { s with
        children := s.children.map fun d => if d.pid = pid then { d with proc := proc } else d
        pending := true }

theorem moves_of_step (h : s.step e = some s') : s.pc.over = false ∧ Moves s e s' := by
  unfold Tsh.step at h
  cases hover : s.pc.over with
  | true =>
      rw [if_pos hover] at h
      cases h
  | false =>
      rw [if_neg (by simp [hover])] at h
      refine ⟨rfl, ?_⟩
      cases hh : s.handler with
      | none =>
          cases e with
          | read line =>
              cases hpc : s.pc <;> simp only [hh, hpc] at h <;> cases h
              exact .read line hh hpc
          | advance =>
              simp only [hh] at h
              exact .advance s' hh h
          | forked pid =>
              cases hpc : s.pc <;> simp only [hh, hpc] at h <;> try cases h
              split at h
              · next hfresh =>
                  cases h
                  simpa only [hh] using Moves.forked pid _ hh hpc hfresh.1 hfresh.2
              · cases h
          | wake =>
              cases hpc : s.pc <;> simp only [hh, hpc] at h <;> cases h
              simpa only [hh] using Moves.wake _ hh hpc
          | deliver =>
              simp only [hh] at h
              split at h
              · next hdel =>
                  cases h
                  exact .deliver hh hdel.1 hdel.2
              · cases h
          | reap pid => simp only [hh] at h; cases h
          | handlerReturn => simp only [hh] at h; cases h
          | child pid event =>
              simp only [hh] at h
              split at h
              · cases h
              · split at h
                · cases h
                · cases h
                  simpa only [hh] using Moves.child (s := s) pid event _
      | some saved =>
          cases e with
          | read => simp only [hh] at h; cases h
          | advance => simp only [hh] at h; cases h
          | forked => simp only [hh] at h; cases h
          | wake => simp only [hh] at h; cases h
          | deliver => simp only [hh] at h; cases h
          | reap pid =>
              simp only [hh] at h
              split at h
              · next c hfind =>
                  cases h
                  have hc := List.find?_some hfind
                  have hmem := List.mem_of_find?_eq_some hfind
                  simp only [decide_eq_true_eq] at hc
                  obtain ⟨rfl, hrep⟩ := hc
                  exact .reap c saved hh hmem hrep
              · cases h
          | handlerReturn =>
              simp only [hh] at h
              split at h
              · cases h
              · cases h
                exact .handlerReturn saved hh
          | child pid event =>
              simp only [hh] at h
              split at h
              · cases h
              · split at h
                · cases h
                · cases h
                  simpa only [hh] using Moves.child (s := s) pid event _

/-- The command is not built in, so that `eval` forks. -/
def Line.External (line : Line) : Prop :=
  match line.argv with
  | [] => False
  | name :: _ => name ∉ [quitName, exitName, ampersand, fgName, bgName, jobsName]

/-- What reading a command line leads to. -/
theorem read_cases (s : Tsh) (line : Line) :
    (¬line.External ∧ s.read line = s) ∨ (¬line.External ∧ s.read line = { s with pc := .exited }) ∨
      (line.External ∧ s.read line = { s with pc := .block line }) ∨
      ∃ name rest i curPid, ¬line.External ∧ line.argv = name :: rest ∧
        (name = fgName ∨ name = bgName) ∧ bgfgJob s.table.jobs line.argv = .ok (i, curPid) ∧
        s.read line = { s with pc := .cont (name = bgName) i curPid } := by
  obtain ⟨cmdline, argv, bg⟩ := line
  cases argv with
  | nil => exact .inl ⟨id, rfl⟩
  | cons name rest =>
      by_cases hquit : name = quitName ∨ name = exitName
      · refine .inr (.inl ⟨fun h => ?_, ?_⟩)
        · simp only [Line.External, List.mem_cons, not_or] at h
          tauto
        · simp only [Tsh.read, if_pos hquit]
      by_cases hamp : name = ampersand
      · refine .inl ⟨fun h => ?_, ?_⟩
        · simp [Line.External, hamp] at h
        · simp only [Tsh.read, if_neg hquit, if_pos hamp]
      by_cases hfg : name = fgName ∨ name = bgName
      · have hext : ¬Line.External ⟨cmdline, name :: rest, bg⟩ := by
          intro h
          simp only [Line.External, List.mem_cons, not_or] at h
          tauto
        cases hjob : bgfgJob s.table.jobs (name :: rest) with
        | error e =>
            refine .inl ⟨hext, ?_⟩
            simp only [Tsh.read, if_neg hquit, if_neg hamp, if_pos hfg, hjob]
        | ok found =>
            obtain ⟨i, curPid⟩ := found
            refine .inr (.inr (.inr ⟨name, rest, i, curPid, hext, rfl, hfg, rfl, ?_⟩))
            simp only [Tsh.read, if_neg hquit, if_neg hamp, if_pos hfg, hjob]
      by_cases hjobs : name = jobsName
      · refine .inl ⟨fun h => ?_, ?_⟩
        · simp [Line.External, hjobs] at h
        · simp only [Tsh.read, if_neg hquit, if_neg hamp, if_neg hfg, if_pos hjobs]
      · refine .inr (.inr (.inl ⟨?_, ?_⟩))
        · simp only [Line.External, List.mem_cons, not_or, List.not_mem_nil, not_false_eq_true]
          tauto
        · simp only [Tsh.read, if_neg hquit, if_neg hamp, if_neg hfg, if_neg hjobs]

/-- What one turn of the handler's loop does with the child that it reaps. -/
inductive Handled (s : Tsh) (c : Child) : Tsh → Prop
  | lost (flag : Bool) (none : ∀ i, (s.table.jobs i).pid ≠ c.pid) :
      Handled s c { s with flag := flag, pc := .failed }
  | ended (how : Ended) (i : Fin maxJobs) (next : Int) (proc : c.proc = .zombie how)
      (entry : (s.table.jobs i).pid = c.pid) :
      Handled s c { s with
        flag := s.flag || c.pid = fgpid s.table.jobs
        table := ⟨Function.update s.table.jobs i clearjob, next⟩ }
  | stopped (i : Fin maxJobs) (entry : (s.table.jobs i).pid = c.pid) (proc : c.proc = .stopped false) :
      Handled s c { s with
        flag := s.flag || c.pid = fgpid s.table.jobs
        table := { s.table with jobs := setState s.table.jobs i .st }
        blocked := Finset.univ }

theorem handled (s : Tsh) (hpos : 1 ≤ c.pid) (hrep : c.reportable) : Handled s c (s.handle c) := by
  have hflag : (if c.pid = fgpid s.table.jobs then { s with flag := true } else s) =
      { s with flag := s.flag || decide (c.pid = fgpid s.table.jobs) } := by
    by_cases hfg : c.pid = fgpid s.table.jobs
    · simp [hfg]
    · simp [hfg]
  rw [Tsh.handle, hflag]
  cases hfind : getjobpid s.table.jobs c.pid with
  | none => exact .lost _ ((getjobpid_none hpos).mp hfind)
  | some i =>
      obtain ⟨-, hi⟩ := getjobpid_some hfind
      cases hproc : c.proc with
      | running => simp [Child.reportable, hproc] at hrep
      | stopped reported =>
          have hnew : reported = false := by simpa [Child.reportable, hproc] using hrep
          exact .stopped i hi (hnew ▸ hproc)
      | zombie how =>
          cases deletejob_cases s.table hpos with
          | inl hdel =>
              obtain ⟨j, next, hj, heq⟩ := hdel
              simp only [heq]
              exact .ended how j next hproc hj
          | inr hdel => exact absurd hi (hdel.1 i)

/-! ## The table and the mask -/

/-- The child that is forked but has no entry yet. -/
def At.adding : At → Option Int
  | .clear _ pid => some pid
  | .add _ pid => some pid
  | _ => none

/-- The entry that `do_bgfg` holds a pointer to. -/
def At.target : At → Option (Fin maxJobs)
  | .cont _ i _ => some i
  | .background i => some i
  | .clearFg i _ => some i
  | .foreground i _ => some i
  | _ => none

/-- `eval` has blocked `SIGCHLD` and will fork, or has just done so. -/
def At.forking : At → Bool
  | .fork _ => true
  | .clear _ _ => true
  | .add _ _ => true
  | .unblock _ _ => true
  | _ => false

namespace Tsh

def pids (s : Tsh) : List Int := s.children.map Child.pid

def mainMask (s : Tsh) : Sigset :=
  match s.pc with
  | .suspended mask => mask
  | _ => s.handler.getD s.blocked

end Tsh

/-- The occupied entries name different children. -/
structure TableOk (jobs : Jobs) (pids : List Int) : Prop where
  pos : ∀ p ∈ pids, 1 ≤ p
  nodup : pids.Nodup
  entries : ∀ i, jobs i = clearjob ∨ (jobs i).pid ∈ pids
  distinct : ∀ i j, (jobs i).pid = (jobs j).pid → (jobs i).pid ≠ 0 → i = j

namespace TableOk

variable {jobs : Jobs} {pids : List Int}

theorem ne_zero (h : TableOk jobs pids) (hp : pid ∈ pids) : pid ≠ 0 := by
  have hpos := h.pos pid hp
  omega

theorem eq_of_pid (h : TableOk jobs pids) (hp : pid ∈ pids) (hi : (jobs i).pid = pid)
    (hj : (jobs j).pid = pid) : i = j :=
  h.distinct i j (hi.trans hj.symm) (hi ▸ h.ne_zero hp)

theorem mem_of_ne_zero (h : TableOk jobs pids) (hi : (jobs i).pid ≠ 0) : (jobs i).pid ∈ pids := by
  cases h.entries i with
  | inl hclear => exact absurd (by rw [hclear]; rfl) hi
  | inr hmem => exact hmem

theorem setState (h : TableOk jobs pids) (hi : (jobs i).pid ∈ pids) (state : JobState) :
    TableOk (setState jobs i state) pids where
  pos := h.pos
  nodup := h.nodup
  entries j := by
    by_cases hj : j = i
    · right
      rw [setState_pid, hj]
      exact hi
    · rw [setState_of_ne _ _ hj]
      exact h.entries j
  distinct j k := by
    simp only [setState_pid]
    exact h.distinct j k

theorem update (h : TableOk jobs pids) (hp : pid ∈ pids) (hnot : ∀ j, (jobs j).pid ≠ pid)
    (i : Fin maxJobs) (jid : Int) (state : JobState) (cmdline : CString) :
    TableOk (Function.update jobs i ⟨pid, jid, state, cmdline⟩) pids where
  pos := h.pos
  nodup := h.nodup
  entries j := by
    by_cases hj : j = i
    · right
      rw [hj, Function.update_self]
      exact hp
    · rw [Function.update_of_ne hj]
      exact h.entries j
  distinct j k hjk hj := by
    by_cases hji : j = i
    · by_cases hki : k = i
      · rw [hji, hki]
      · rw [hji, Function.update_self, Function.update_of_ne hki] at hjk
        exact absurd hjk.symm (hnot k)
    · rw [Function.update_of_ne hji] at hjk hj
      by_cases hki : k = i
      · rw [hki, Function.update_self] at hjk
        exact absurd hjk (hnot j)
      · rw [Function.update_of_ne hki] at hjk
        exact h.distinct j k hjk hj

theorem cons (h : TableOk jobs pids) (hpos : 1 ≤ pid) (hfresh : pid ∉ pids) :
    TableOk jobs (pid :: pids) where
  pos p hp := by
    cases List.mem_cons.mp hp with
    | inl he => exact he ▸ hpos
    | inr hp => exact h.pos p hp
  nodup := List.nodup_cons.mpr ⟨hfresh, h.nodup⟩
  entries i := by
    cases h.entries i with
    | inl hclear => exact .inl hclear
    | inr hmem => exact .inr (List.mem_cons_of_mem _ hmem)
  distinct := h.distinct

theorem filter (h : TableOk jobs pids) (hnot : ∀ i, (jobs i).pid ≠ pid) :
    TableOk jobs (pids.filter fun p => p ≠ pid) where
  pos p hp := h.pos p (List.mem_of_mem_filter hp)
  nodup := h.nodup.filter _
  entries i := by
    cases h.entries i with
    | inl hclear => exact .inl hclear
    | inr hmem =>
        right
        rw [List.mem_filter]
        exact ⟨hmem, by simpa using hnot i⟩
  distinct := h.distinct

theorem clear (h : TableOk jobs pids) (i : Fin maxJobs) :
    TableOk (Function.update jobs i clearjob) pids where
  pos := h.pos
  nodup := h.nodup
  entries j := by
    by_cases hj : j = i
    · left
      rw [hj, Function.update_self]
    · rw [Function.update_of_ne hj]
      exact h.entries j
  distinct j k hjk hj := by
    by_cases hji : j = i
    · rw [hji, Function.update_self] at hj
      exact absurd rfl hj
    · rw [Function.update_of_ne hji] at hjk hj
      by_cases hki : k = i
      · rw [hki, Function.update_self] at hjk
        exact absurd hjk hj
      · rw [Function.update_of_ne hki] at hjk
        exact h.distinct j k hjk hj

theorem bgfgJob_mem (h : TableOk jobs pids) {argv : List CString} {curPid : Int}
    (heq : bgfgJob jobs argv = .ok (i, curPid)) :
    (jobs i).pid ∈ pids ∧ (curPid = (jobs i).pid ∨ curPid = -1) := by
  have hjid : ∀ jid, getjobjid jobs jid = some i → (jobs i).pid ∈ pids := by
    intro jid hfound
    obtain ⟨hpos, hj⟩ := getjobjid_some hfound
    cases h.entries i with
    | inl hclear =>
        rw [hclear] at hj
        exact absurd hpos (by rw [← hj]; decide)
    | inr hmem => exact hmem
  have hpid : ∀ pid, getjobpid jobs pid = some i → (jobs i).pid ∈ pids := by
    intro pid hfound
    obtain ⟨hpos, hp⟩ := getjobpid_some hfound
    exact h.mem_of_ne_zero (by omega)
  rw [bgfgJob] at heq
  split at heq
  · cases heq
  · split at heq
    · split at heq
      · cases heq
      · next hfound =>
          cases heq
          exact ⟨hjid _ hfound, .inl rfl⟩
    · split at heq
      · split at heq
        · cases heq
        · next hfound =>
            cases heq
            exact ⟨hpid _ hfound, .inr rfl⟩
      · cases heq
    · cases heq

end TableOk

structure Base (s : Tsh) : Prop where
  table : TableOk s.table.jobs s.pids
  guarded : s.pc.over = false → s.pids ≠ [] ∨ s.pc.forking → sigchld ∈ s.mainMask
  handling : s.pc.over = false → s.handler ≠ none → s.pids ≠ [] → ∃ mask, s.pc = .suspended mask
  adding : ∀ p, s.pc.adding = some p → p ∈ s.pids ∧ ∀ i, (s.table.jobs i).pid ≠ p
  target : ∀ i, s.pc.target = some i → (s.table.jobs i).pid ∈ s.pids

namespace Base

theorem init (blocked : Sigset) : Base (init blocked) where
  table := ⟨by simp [Shell.init, Tsh.pids], by simp [Shell.init, Tsh.pids], fun _ => .inl rfl,
    fun _ _ _ h => absurd rfl h⟩
  guarded _ h := by simp [Shell.init, Tsh.pids, At.forking] at h
  handling _ h := absurd rfl h
  adding p h := by cases h
  target i h := by cases h

theorem of_idle (hidle : s.handler = none) (htable : TableOk s.table.jobs s.pids)
    (hguarded : s.pids ≠ [] ∨ s.pc.forking → sigchld ∈ s.mainMask)
    (hadding : ∀ p, s.pc.adding = some p → p ∈ s.pids ∧ ∀ i, (s.table.jobs i).pid ≠ p)
    (htarget : ∀ i, s.pc.target = some i → (s.table.jobs i).pid ∈ s.pids) : Base s :=
  ⟨htable, fun _ => hguarded, fun _ hh => absurd hidle hh, hadding, htarget⟩

theorem mem_mainMask (hidle : s.handler = none) (hpc : ∀ mask, s.pc ≠ .suspended mask)
    (hb : sigchld ∈ s.blocked) : sigchld ∈ s.mainMask := by
  unfold Tsh.mainMask
  cases hs : s.pc <;> first | exact absurd hs (hpc _) | rwa [hidle]

theorem mainMask_of_pc (hidle : s.handler = none) (hpc : ∀ mask, s.pc ≠ .suspended mask) :
    s.mainMask = s.blocked := by
  unfold Tsh.mainMask
  cases hs : s.pc <;> first | exact absurd hs (hpc _) | rw [hidle]; rfl

theorem of_statement (h : Base s) (hidle : s.handler = none) (hpc : ∀ mask, s.pc ≠ .suspended mask)
    (hover : s.pc.over = false) (hidle' : s'.handler = none)
    (hpc' : ∀ mask, s'.pc ≠ .suspended mask) (hblocked : s'.blocked = s.blocked)
    (hpids : s'.pids = s.pids) (htable : TableOk s'.table.jobs s.pids)
    (hfork : s'.pc.forking → s.pc.forking)
    (hadding : ∀ p, s'.pc.adding = some p → p ∈ s.pids ∧ ∀ i, (s'.table.jobs i).pid ≠ p)
    (htarget : ∀ i, s'.pc.target = some i → (s'.table.jobs i).pid ∈ s.pids) : Base s' := by
  apply of_idle hidle' (hpids ▸ htable) _ (hpids ▸ hadding) (hpids ▸ htarget)
  intro hor
  rw [mainMask_of_pc hidle' hpc', hblocked, ← mainMask_of_pc hidle hpc]
  rw [hpids] at hor
  cases hor with
  | inl hne => exact h.guarded hover (.inl hne)
  | inr hf => exact h.guarded hover (.inr (hfork hf))

theorem read (h : Base s) (hidle : s.handler = none) (hpc : s.pc = .prompt) (line : Line) :
    Base (s.read line) := by
  have hmask : ∀ mask, s.pc ≠ .suspended mask := by
    rw [hpc]
    nofun
  have hover : s.pc.over = false := by
    rw [hpc]
    rfl
  rcases read_cases s line with ⟨-, he⟩ | ⟨-, he⟩ | ⟨-, he⟩ | ⟨name, rest, i, curPid, -, -, -, hjob, he⟩
  · rwa [he]
  · rw [he]
    exact h.of_statement hidle hmask hover hidle nofun rfl rfl h.table nofun nofun nofun
  · rw [he]
    exact h.of_statement hidle hmask hover hidle nofun rfl rfl h.table nofun nofun nofun
  · rw [he]
    refine h.of_statement hidle hmask hover hidle nofun rfl rfl h.table nofun nofun fun j hj => ?_
    cases hj
    exact (h.table.bgfgJob_mem hjob).1

theorem pids_continueGroup (s : Tsh) (pid : Int) : (s.continueGroup pid).pids = s.pids := by
  rw [Tsh.pids, Tsh.continueGroup, List.map_map]
  apply List.map_congr_left
  intro c _
  simp only [Function.comp]
  split <;> rfl

theorem advance (h : Base s) (hidle : s.handler = none) (hs : s.advance s.pc = some s') :
    Base s' := by
  cases hpc : s.pc with
  | prompt => rw [hpc] at hs; cases hs
  | fork line => rw [hpc] at hs; cases hs
  | suspended mask => rw [hpc] at hs; cases hs
  | exited => rw [hpc] at hs; cases hs
  | failed => rw [hpc] at hs; cases hs
  | loop =>
      rw [hpc] at hs
      simp only [Tsh.advance] at hs
      split at hs
      · cases hs
        exact h.of_statement hidle (by rw [hpc]; nofun) (by rw [hpc]; rfl) hidle nofun rfl rfl h.table
          nofun nofun nofun
      · cases hs
        refine of_idle hidle h.table (fun hor => ?_) nofun nofun
        show sigchld ∈ s.blocked
        rw [← mainMask_of_pc hidle (by rw [hpc]; nofun)]
        apply h.guarded (by rw [hpc]; rfl)
        cases hor with
        | inl hne => exact .inl hne
        | inr hf => cases hf
  | block line =>
      rw [hpc] at hs
      cases hs
      refine of_idle hidle h.table (fun _ => ?_) nofun nofun
      show sigchld ∈ s.handler.getD (insert sigchld s.blocked)
      rw [hidle]
      exact Finset.mem_insert_self _ _
  | clear line pid =>
      rw [hpc] at hs
      cases hs
      refine h.of_statement hidle (by rw [hpc]; nofun) (by rw [hpc]; rfl) hidle nofun rfl rfl h.table
        (fun _ => by rw [hpc]; rfl) (fun p hp => h.adding p ?_) nofun
      rw [hpc]
      exact hp
  | add line pid =>
      rw [hpc] at hs
      cases hs
      obtain ⟨hmem, hnot⟩ := h.adding pid (by rw [hpc]; rfl)
      refine h.of_statement hidle (by rw [hpc]; nofun) (by rw [hpc]; rfl) hidle nofun rfl rfl ?_
        (fun _ => by rw [hpc]; rfl) nofun nofun
      cases addjob_cases s.table (h.table.pos pid hmem) (if line.bg then .bg else .fg)
        line.cmdline with
      | inl hfree =>
          obtain ⟨i, next, -, heq⟩ := hfree
          simp only [heq]
          exact h.table.update hmem hnot i _ _ _
      | inr hfull =>
          simp only [hfull.2]
          exact h.table
  | unblock line pid =>
      rw [hpc] at hs
      cases hs
      refine h.of_statement hidle (by rw [hpc]; nofun) (by rw [hpc]; rfl) hidle ?_
        Finset.sdiff_empty rfl h.table ?_ ?_ ?_ <;> cases line.bg <;> nofun
  | cont bg i curPid =>
      rw [hpc] at hs
      cases hs
      have htarget := h.target i (by rw [hpc]; rfl)
      refine h.of_statement hidle (by rw [hpc]; nofun) (by rw [hpc]; rfl) hidle ?_ rfl
        (pids_continueGroup s curPid) h.table ?_ ?_ ?_
      · cases bg <;> nofun
      · cases bg <;> nofun
      · cases bg <;> nofun
      · cases bg <;> exact fun j hj => Option.some.inj hj ▸ htarget
  | background i =>
      rw [hpc] at hs
      cases hs
      exact h.of_statement hidle (by rw [hpc]; nofun) (by rw [hpc]; rfl) hidle nofun rfl rfl
        (h.table.setState (h.target i (by rw [hpc]; rfl)) .bg) nofun nofun nofun
  | clearFg i curPid =>
      rw [hpc] at hs
      cases hs
      have htarget := h.target i (by rw [hpc]; rfl)
      exact h.of_statement hidle (by rw [hpc]; nofun) (by rw [hpc]; rfl) hidle nofun rfl rfl h.table
        nofun nofun (fun j hj => Option.some.inj hj ▸ htarget)
  | foreground i curPid =>
      rw [hpc] at hs
      cases hs
      exact h.of_statement hidle (by rw [hpc]; nofun) (by rw [hpc]; rfl) hidle nofun rfl rfl
        (h.table.setState (h.target i (by rw [hpc]; rfl)) .fg) nofun nofun nofun
  | waitfg pid =>
      rw [hpc] at hs
      simp only [Tsh.advance] at hs
      split at hs
      · cases hs
        exact h.of_statement hidle (by rw [hpc]; nofun) (by rw [hpc]; rfl) hidle nofun rfl rfl
          h.table nofun nofun nofun
      · split at hs <;> cases hs <;>
          exact h.of_statement hidle (by rw [hpc]; nofun) (by rw [hpc]; rfl) hidle nofun rfl rfl
            h.table nofun nofun nofun

/-- The handler finds a child only while the main flow is in `sigsuspend`. -/
theorem suspended_of_reap (h : Base s) (hover : s.pc.over = false) {saved : Sigset}
    (hbusy : s.handler = some saved) (hc : c ∈ s.children) : ∃ mask, s.pc = .suspended mask := by
  apply h.handling hover (by rw [hbusy]; nofun)
  exact List.ne_nil_of_mem (List.mem_map_of_mem hc)

theorem pids_collect (s : Tsh) (hrep : c.reportable) :
    ((∃ how, c.proc = .zombie how) ∧ (s.collect c).pids = s.pids.filter fun p => p ≠ c.pid) ∨
      (c.proc = .stopped false ∧ (s.collect c).pids = s.pids) := by
  cases hproc : c.proc with
  | running => simp [Child.reportable, hproc] at hrep
  | stopped reported =>
      have hnew : reported = false := by simpa [Child.reportable, hproc] using hrep
      refine .inr ⟨by rw [hnew], ?_⟩
      simp only [Tsh.collect, hproc, Tsh.pids, List.map_map]
      apply List.map_congr_left
      intro d _
      simp only [Function.comp]
      split <;> rfl
  | zombie how =>
      refine .inl ⟨⟨how, rfl⟩, ?_⟩
      simp only [Tsh.collect, hproc, Tsh.pids, List.filter_map]
      rfl

theorem pids_child (s : Tsh) (pid : Int) (proc : Proc) :
    Tsh.pids { s with
      children := s.children.map fun d => if d.pid = pid then { d with proc := proc } else d
      pending := true } = s.pids := by
  rw [Tsh.pids, Tsh.pids, List.map_map]
  apply List.map_congr_left
  intro d _
  simp only [Function.comp]
  split <;> rfl

theorem collect_same (s : Tsh) (c : Child) :
    (s.collect c).table = s.table ∧ (s.collect c).pc = s.pc ∧ (s.collect c).handler = s.handler ∧
      (s.collect c).flag = s.flag := by
  rw [Tsh.collect]
  split <;> exact ⟨rfl, rfl, rfl, rfl⟩

theorem reap (h : Base s) (hover : s.pc.over = false) {saved : Sigset}
    (hbusy : s.handler = some saved) (hc : c ∈ s.children) (hrep : c.reportable) :
    Base ((s.collect c).handle c) := by
  obtain ⟨mask, hpc⟩ := h.suspended_of_reap hover hbusy hc
  have hmem : c.pid ∈ s.pids := List.mem_map_of_mem hc
  have hpos := h.table.pos _ hmem
  have hguard : sigchld ∈ mask := by
    have hg := h.guarded hover (.inl (List.ne_nil_of_mem hmem))
    rwa [Tsh.mainMask, hpc] at hg
  obtain ⟨htable, hpc', -, -⟩ := collect_same s c
  have hpids := pids_collect s hrep
  generalize s.collect c = t at htable hpc' hpids
  -- in `sigsuspend` only the table matters
  have hbase : ∀ t' : Tsh, t'.pc = .suspended mask → TableOk t'.table.jobs t'.pids → Base t' := by
    intro t' hpct htab
    refine ⟨htab, fun _ _ => ?_, fun _ _ _ => ⟨mask, hpct⟩, ?_, ?_⟩
    · rwa [Tsh.mainMask, hpct]
    · rw [hpct]
      nofun
    · rw [hpct]
      nofun
  have hhandled := handled t hpos hrep
  generalize t.handle c = t' at hhandled ⊢
  cases hhandled with
  | lost flag none =>
      refine ⟨?_, nofun, nofun, nofun, nofun⟩
      rw [htable] at none
      show TableOk t.table.jobs t.pids
      cases hpids with
      | inl hzombie => rw [htable, hzombie.2]; exact h.table.filter none
      | inr hstop => rw [htable, hstop.2]; exact h.table
  | ended how i next proc entry =>
      refine hbase _ (show t.pc = _ from hpc'.trans hpc) ?_
      cases hpids with
      | inl hzombie =>
          show TableOk (Function.update t.table.jobs i clearjob) t.pids
          rw [htable, hzombie.2]
          rw [htable] at entry
          apply (h.table.clear i).filter
          intro j
          by_cases hji : j = i
          · rw [hji, Function.update_self]
            exact (h.table.ne_zero hmem).symm
          · rw [Function.update_of_ne hji]
            exact fun hj => hji (h.table.eq_of_pid hmem hj entry)
      | inr hstop =>
          rw [hstop.1] at proc
          cases proc
  | stopped i entry proc =>
      refine hbase _ (show t.pc = _ from hpc'.trans hpc) ?_
      cases hpids with
      | inl hzombie =>
          obtain ⟨⟨how, hz⟩, -⟩ := hzombie
          rw [hz] at proc
          cases proc
      | inr hstop =>
          show TableOk (setState t.table.jobs i .st) t.pids
          rw [htable, hstop.2]
          rw [htable] at entry
          exact h.table.setState (entry ▸ hmem) .st

theorem step (h : Base s) (hs : s.step e = some s') : Base s' := by
  obtain ⟨hover, hmoves⟩ := moves_of_step hs
  cases hmoves with
  | read line idle pc => exact h.read idle pc line
  | advance _ idle next => exact h.advance idle next
  | forked pid line idle pc pos fresh =>
      have hmask : sigchld ∈ s.mainMask := h.guarded hover (.inr (by rw [pc]; rfl))
      have hblocked : s.mainMask = s.blocked := mainMask_of_pc idle (by rw [pc]; nofun)
      have hnot : ∀ i, (s.table.jobs i).pid ≠ pid := by
        intro i hi
        exact fresh (hi ▸ h.table.mem_of_ne_zero (by omega))
      refine of_idle idle (h.table.cons pos fresh) (fun _ => ?_) ?_ ?_
      · refine mem_mainMask idle ?_ (hblocked ▸ hmask)
        cases line.bg <;> nofun
      · cases line.bg <;> exact fun p hp => Option.some.inj hp ▸ ⟨List.mem_cons_self, hnot⟩
      · cases line.bg <;> nofun
  | wake mask idle pc =>
      refine of_idle idle h.table (fun hor => ?_) nofun nofun
      have hg : s.mainMask = mask := by rw [Tsh.mainMask, pc]
      refine mem_mainMask idle nofun (show sigchld ∈ mask from hg ▸ ?_)
      apply h.guarded hover
      cases hor with
      | inl hne => exact .inl hne
      | inr hf => cases hf
  | deliver idle pending unblocked =>
      have hsame : Tsh.mainMask { s with
          handler := some s.blocked, blocked := insert sigchld s.blocked, pending := false } =
          s.mainMask := by
        unfold Tsh.mainMask
        cases s.pc <;> simp [idle]
      refine ⟨h.table, fun ho hor => hsame ▸ h.guarded ho hor, fun ho _ hne => ?_, h.adding, h.target⟩
      by_contra hnot
      have hm := h.guarded hover (.inl hne)
      rw [mainMask_of_pc idle fun mask hpc => hnot ⟨mask, hpc⟩] at hm
      exact unblocked hm
  | reap c saved busy mem reportable => exact h.reap hover busy mem reportable
  | handlerReturn saved busy =>
      have hsame : Tsh.mainMask { s with handler := none, blocked := saved } = s.mainMask := by
        unfold Tsh.mainMask
        cases s.pc <;> simp [busy]
      exact ⟨h.table, fun ho hor => hsame ▸ h.guarded ho hor, fun _ hh => absurd rfl hh, h.adding,
        h.target⟩
  | child pid event proc =>
      constructor <;> rw [pids_child]
      · exact h.table
      · exact h.guarded
      · exact h.handling
      · exact h.adding
      · exact h.target

theorem of_run {ok : Tsh → Event → Prop} {blocked : Sigset}
    (hrun : Run Tsh.step ok (Shell.init blocked) s) : Base s :=
  hrun.invariant Base (init blocked) fun _ _ _ h _ hs => h.step hs

end Base

end CsappLabs.Shell
