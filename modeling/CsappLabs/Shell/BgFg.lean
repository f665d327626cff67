import CsappLabs.Shell.Foreground
import CsappLabs.Shell.JobIds
import Mathlib.Data.Nat.Digits.Defs

/-!
# Jobs by pid and by job id

`fg` and `bg` take a pid or `%` and a job id.  The branch for a pid leaves the
outer `cur_pid` at -1, so the two commands for one job never do the same.
-/

namespace CsappLabs.Shell

open CsappLabs.Foundation

/-- What `do_bgfg` does once it has found a job: the process that `kill` is
called with, the entry that changes and its state, and the argument of
`waitfg`. -/
structure Effect where
  killed : Int
  job : Fin maxJobs
  state : JobState
  waited : Option Int
  deriving DecidableEq

def doBgfg (jobs : Jobs) (argv : List CString) : Except BgfgError Effect := do
  let (i, curPid) ← bgfgJob jobs argv
  if argv.head? = some bgName then .ok ⟨-curPid, i, .bg, none⟩
  else .ok ⟨-curPid, i, .fg, some curPid⟩

variable {s : Tsh} {line : Line} {jobs : Jobs} {i : Fin maxJobs} {name : CString} {n : Nat}
  {e : Effect}

/-! ## Decimal numbers -/

def digit (d : Nat) : UInt8 := UInt8.ofNat (48 + d)

def decimal (n : Nat) : List UInt8 := ((Nat.digits 10 n).map digit).reverse

theorem digit_toNat {d : Nat} (hd : d < 10) : (digit d).toNat = 48 + d := by
  rw [digit, UInt8.toNat_ofNat']
  omega

theorem isdigit_digit {d : Nat} (hd : d < 10) : isdigit (digit d) = true := by
  have hval := digit_toNat hd
  simp only [isdigit, decide_eq_true_eq, UInt8.le_iff_toNat_le, hval]
  exact ⟨Nat.le_add_right 48 d, by simp only [UInt8.reduceToNat]; omega⟩

theorem isdigit_decimal {c : UInt8} (hc : c ∈ decimal n) : isdigit c = true := by
  rw [decimal, List.mem_reverse, List.mem_map] at hc
  obtain ⟨d, hd, rfl⟩ := hc
  exact isdigit_digit (Nat.digits_lt_base (by decide) hd)

theorem decimal_ne_nil (hn : 0 < n) : decimal n ≠ [] := by
  rw [decimal, ne_eq, List.reverse_eq_nil_iff, List.map_eq_nil_iff]
  exact Nat.digits_ne_nil_iff_ne_zero.mpr (Nat.ne_of_gt hn)

theorem value_digits {l : List Nat} (hl : ∀ d ∈ l, d < 10) :
    (l.map digit).reverse.foldl (fun (n : Int) c => 10 * n + (c.toNat - 48)) 0 =
      (Nat.ofDigits 10 l : Nat) := by
  rw [List.foldl_reverse]
  induction l with
  | nil => rfl
  | cons d l ih =>
      rw [List.forall_mem_cons] at hl
      have hval := digit_toNat hl.1
      rw [List.map_cons, List.foldr_cons, ih hl.2, hval, Nat.ofDigits_cons]
      push_cast
      omega

theorem atoi_decimal (hn : 0 < n) (hmax : n < 2 ^ 31) : atoi (decimal n) = n := by
  have hvalue := value_digits fun d hd => Nat.digits_lt_base (b := 10) (m := n) (by decide) hd
  rw [Nat.ofDigits_digits] at hvalue
  have hall : ∀ c ∈ decimal n, isdigit c = true := fun c hc => isdigit_decimal hc
  obtain ⟨c, text, hcons⟩ := List.exists_cons_of_ne_nil (decimal_ne_nil hn)
  rw [← decimal] at hvalue
  rw [hcons] at hvalue hall ⊢
  rw [atoi_digits hall, hvalue, BitVec.toInt_ofInt, Int.bmod_def]
  omega

theorem noNul_decimal (n : Nat) : 0 ∉ decimal n := by
  intro h
  exact absurd (isdigit_decimal h) (by decide)

/-! ## Arguments -/

def Job.Valid (job : Job) : Prop :=
  (job.pid = 0 ∧ job.jid = 0) ∨
    (1 ≤ job.pid ∧ job.pid < 2 ^ 31 ∧ 1 ≤ job.jid ∧ job.jid < 2 ^ 31)

def pidArg (job : Job) : CString := ⟨decimal job.pid.toNat, noNul_decimal _⟩

def jidArg (job : Job) : CString :=
  ⟨37 :: decimal job.jid.toNat, by simpa using noNul_decimal _⟩

theorem atoi_of_pos {m : Int} (hpos : 1 ≤ m) (hmax : m < 2 ^ 31) : atoi (decimal m.toNat) = m := by
  rw [atoi_decimal (by omega) (by omega), Int.toNat_of_nonneg (by omega)]

/-- By its job id the job itself is found, and `cur_pid` is its pid. -/
theorem bgfgJob_jid (hvalid : ∀ j, (jobs j).Valid) (hids : UniqueJids jobs)
    (hi : (jobs i).pid ≠ 0) (name : CString) :
    bgfgJob jobs [name, jidArg (jobs i)] = .ok (i, (jobs i).pid) := by
  obtain ⟨hfree, -⟩ | ⟨-, -, hpos, hmax⟩ := hvalid i
  · exact absurd hfree hi
  · have hfind : getjobjid jobs (jobs i).jid = some i := by
      rw [getjobjid, if_neg (Int.not_lt.mpr hpos)]
      refine findJob_unique (by simp) fun j hj => ?_
      have hjid : (jobs j).jid = (jobs i).jid := of_decide_eq_true hj
      obtain ⟨-, hzero⟩ | ⟨hlive, -⟩ := hvalid j
      · omega
      · exact hids j i (by omega) hi hjid
    simp only [bgfgJob, jidArg, List.getElem?_cons_succ, List.getElem?_cons_zero,
      atoi_of_pos hpos hmax, hfind]

/-- By its pid a job is found as well, but `cur_pid` stays -1. -/
theorem bgfgJob_pid (hvalid : ∀ j, (jobs j).Valid) (hi : (jobs i).pid ≠ 0) (name : CString) :
    ∃ k, bgfgJob jobs [name, pidArg (jobs i)] = .ok (k, -1) := by
  obtain ⟨hfree, -⟩ | ⟨hpos, hmax, -⟩ := hvalid i
  · exact absurd hfree hi
  · obtain ⟨c, text, hcons⟩ :=
      List.exists_cons_of_ne_nil (decimal_ne_nil (n := (jobs i).pid.toNat) (by omega))
    have hdigit : isdigit c = true := isdigit_decimal (hcons ▸ List.mem_cons_self)
    have hfound : (getjobpid jobs (atoi (pidArg (jobs i)).bytes)).isSome := by
      rw [Option.isSome_iff_ne_none]
      intro hnone
      rw [pidArg, atoi_of_pos hpos hmax] at hnone
      exact (getjobpid_none hpos).mp hnone i rfl
    have hline : FgByPid jobs ⟨name, [fgName, pidArg (jobs i)], false⟩ :=
      ⟨pidArg (jobs i), [], c, text, rfl, hcons, hdigit, hfound⟩
    exact bgfgJob_of_pid hline

/-! ## Effects -/

theorem doBgfg_eq {rest : List CString} {curPid : Int}
    (h : bgfgJob jobs (name :: rest) = .ok (i, curPid)) :
    doBgfg jobs (name :: rest) = .ok ⟨-curPid, i, if name = bgName then .bg else .fg,
      if name = bgName then none else some curPid⟩ := by
  rw [doBgfg, h]
  by_cases hbg : name = bgName
  · simp [hbg, bind, Except.bind]
  · simp [hbg, bind, Except.bind]

theorem run_effect {rest : List CString} (hargv : line.argv = name :: rest)
    (hname : name = fgName ∨ name = bgName) (hidle : s.handler = none)
    (he : doBgfg s.table.jobs line.argv = .ok e) :
    Run Tsh.step (fun _ _ => True) (s.read line) { s.continueGroup (-e.killed) with
      flag := if e.waited.isSome then false else s.flag
      table := { s.table with jobs := setState s.table.jobs e.job e.state }
      pc := e.waited.elim .prompt .waitfg } := by
  have hquit : ¬(name = quitName ∨ name = exitName) := by
    rcases hname with rfl | rfl <;> decide
  have hamp : name ≠ ampersand := by
    rcases hname with rfl | rfl <;> decide
  rw [hargv] at he
  cases hjob : bgfgJob s.table.jobs (name :: rest) with
  | error err =>
      rw [doBgfg, hjob] at he
      cases he
  | ok r =>
      obtain ⟨i, curPid⟩ := r
      have hread : s.read line = { s with pc := .cont (name = bgName) i curPid } := by
        simp only [Tsh.read, hargv, if_neg hquit, if_neg hamp, if_pos hname, hjob]
      rw [hread]
      have hcont : Run Tsh.step (fun _ _ => True) { s with pc := .cont (name = bgName) i curPid }
          { s.continueGroup curPid with
            pc := if decide (name = bgName) then .background i else .clearFg i curPid } :=
        Run.start.next (a := .advance) trivial (step_advance hidle rfl)
      rw [doBgfg_eq hjob] at he
      cases he
      rw [Int.neg_neg]
      by_cases hbg : name = bgName
      · simp only [hbg] at hcont ⊢
        exact hcont.next (a := .advance) trivial (step_advance (by exact hidle) rfl)
      · simp only [decide_eq_false hbg, if_neg hbg] at hcont ⊢
        have hclear := hcont.next (a := .advance) trivial (step_advance (by exact hidle) rfl)
        exact hclear.next (a := .advance) trivial (step_advance (by exact hidle) rfl)

/-- For no job the two commands have the same effect: the one with the pid
sends `SIGCONT` to the process 1. -/
theorem never_alike (hvalid : ∀ j, (jobs j).Valid) (hids : UniqueJids jobs)
    (hi : (jobs i).pid ≠ 0) (name : CString) :
    doBgfg jobs [name, pidArg (jobs i)] ≠ doBgfg jobs [name, jidArg (jobs i)] := by
  obtain ⟨k, hpid⟩ := bgfgJob_pid hvalid hi name
  have hjid := bgfgJob_jid hvalid hids hi name
  rw [doBgfg_eq hpid, doBgfg_eq hjid]
  intro heq
  have hkilled := congrArg Effect.killed (Except.ok.inj heq)
  dsimp only at hkilled
  obtain ⟨hfree, -⟩ | ⟨hpos, -⟩ := hvalid i
  · exact hi hfree
  · omega

theorem never_alike_stopped :
    doBgfg (Function.update initjobs 0 ⟨5000, 1, .st, ampersand⟩)
        [fgName, pidArg ⟨5000, 1, .st, ampersand⟩] ≠
      doBgfg (Function.update initjobs 0 ⟨5000, 1, .st, ampersand⟩)
        [fgName, jidArg ⟨5000, 1, .st, ampersand⟩] :=
  never_alike (i := 0) (by unfold Job.Valid; decide) (by decide) (by decide) fgName

/-- `fg 5000` and `fg %1` for the stopped job 1. -/
theorem stopped_job_by_pid :
    ¬(doBgfg (Function.update initjobs 0 ⟨5000, 1, .st, ampersand⟩)
        [fgName, ⟨[53, 48, 48, 48], by decide⟩] =
      doBgfg (Function.update initjobs 0 ⟨5000, 1, .st, ampersand⟩)
        [fgName, ⟨[37, 49], by decide⟩]) := by
  have hpid : doBgfg (Function.update initjobs 0 ⟨5000, 1, .st, ampersand⟩)
      [fgName, ⟨[53, 48, 48, 48], by decide⟩] = .ok ⟨1, 0, .fg, some (-1)⟩ := by
    rfl
  have hjid : doBgfg (Function.update initjobs 0 ⟨5000, 1, .st, ampersand⟩)
      [fgName, ⟨[37, 49], by decide⟩] = .ok ⟨-5000, 0, .fg, some 5000⟩ := by
    rfl
  rw [hpid, hjid]
  intro heq
  cases heq

end CsappLabs.Shell
