import CsappLabs.Shell.Waiting

/-!
# Ctrl-c and ctrl-z

The handlers of `SIGINT` and `SIGTSTP` look up the foreground job and then
signal it.  They add nothing to the runs of the shell unless the job is reaped
in between, or they run between `waitpid` and `deletejob`: then the job may be
gone, and `Kill` ends the shell.
-/

namespace CsappLabs.Shell

open CsappLabs.Foundation

inductive Key where
  | int
  | tstp
  deriving DecidableEq

def Key.signal : Key → Signal
  | .int => ⟨2, by decide⟩
  | .tstp => ⟨20, by decide⟩

def Key.effect : Key → ChildEvent
  | .int => .ends .signaled
  | .tstp => .stops

/-- A handler that has called `fgpid` and not yet `Kill`; `nested` when it has
interrupted `sigchld_handler`. -/
structure Typed where
  pid : Int
  key : Key
  nested : Bool
  deriving DecidableEq

/-- The handlers that have started, the last one first, and the child that
`waitpid` has returned while the turn of `sigchld_handler` is not over. -/
structure Terminal where
  tsh : Tsh
  typed : List Typed
  waited : Option Int

/-- A turn of `sigchld_handler` is one event of the shell, or begins with
`waitpid` as an event of its own.  `kill` is the second statement of a handler;
the process may catch the signal or obey it. -/
inductive TerminalEvent where
  | shell (e : Event)
  | waitpid (pid : Int)
  | press (key : Key)
  | kill (obeys : Bool)

/-- What can happen once a handler has started.  The `sigchld_handler` that it
has interrupted waits for it, as the main flow does. -/
def Typed.allows (k : Typed) : Event → Bool
  | .deliver => true
  | .child _ _ => true
  | .reap _ => !k.nested
  | .handlerReturn => !k.nested
  | _ => false

/-- What can happen between `waitpid` and the end of the turn.  A child that has
been reported as stopped may go on at once; it does so after the turn here. -/
def turnAllows (pid : Int) : Event → Bool
  | .reap p => p = pid
  | .child p _ => p ≠ pid
  | _ => false

namespace Terminal

def alive (t : Terminal) : List Child :=
  t.tsh.children.filter fun c =>
    match c.proc with
    | .zombie _ => t.waited ≠ some c.pid
    | _ => true

def shell (t : Terminal) (e : Event) : Option Terminal :=
  if (∀ k ∈ t.typed.head?, k.allows e) ∧ ∀ pid ∈ t.waited, turnAllows pid e then
    (t.tsh.step e).map fun s =>
      match e with
      | .reap _ => ⟨s, t.typed, none⟩
      | _ => { t with tsh := s }
  else none

def waitpid (t : Terminal) (pid : Int) : Option Terminal :=
  if t.tsh.handler.isSome ∧ t.waited = none ∧ (∀ k ∈ t.typed.head?, k.nested = false) ∧
      t.tsh.children.any fun c => c.pid = pid ∧ c.reportable then
    some { t with waited := some pid }
  else none

def press (t : Terminal) (key : Key) : Option Terminal :=
  if key ∈ t.typed.map Typed.key ∨ t.tsh.pc.over ∨ key.signal ∈ t.tsh.blocked then none
  else if fgpid t.tsh.table.jobs ≤ 0 then some t
  else some { t with typed := ⟨fgpid t.tsh.table.jobs, key, t.tsh.handler.isSome⟩ :: t.typed }

/-- `Kill` ends the shell when there is no such process. -/
def kill (t : Terminal) (obeys : Bool) : Option Terminal :=
  match t.typed with
  | [] => none
  | k :: typed =>
      if t.tsh.pc.over ∨ k.nested ≠ t.tsh.handler.isSome then none
      else
        match t.alive.find? fun c => c.pid = k.pid with
        | none => some { t with tsh := { t.tsh with pc := .exited }, typed := typed }
        | some c =>
            match if obeys ∧ t.waited ≠ some k.pid then c.proc.next k.key.effect else none with
            | none => some { t with typed := typed }
            | some proc =>
                some { t with
                  tsh := { t.tsh with
                    children := t.tsh.children.map fun d =>
                      if d.pid = k.pid then { d with proc := proc } else d
                    pending := true }
                  typed := typed }

def step (t : Terminal) : TerminalEvent → Option Terminal
  | .shell e => t.shell e
  | .waitpid pid => t.waitpid pid
  | .press key => t.press key
  | .kill obeys => t.kill obeys

end Terminal

/-- No `SIGCHLD` is delivered once a handler has started, no handler starts
between `waitpid` and the end of the turn, and the events of the shell meet a
condition of their own. -/
def Undisturbed (ok : Tsh → Event → Prop) (t : Terminal) : TerminalEvent → Prop
  | .shell e => ok t.tsh e ∧ (t.typed ≠ [] → e ≠ .deliver)
  | .press _ => t.waited = none
  | _ => True

variable {ok : Tsh → Event → Prop} {t t' : Terminal} {s s' : Tsh} {blocked : Sigset} {e : Event}
  {b : TerminalEvent} {k : Typed} {typed : List Typed} {key : Key} {obeys : Bool} {pid : Int}
  {mask : Sigset}

/-- What the handlers have looked up are children that have not been reaped. -/
structure Aimed (t : Terminal) : Prop where
  mem : ∀ k ∈ t.typed, k.pid ∈ t.tsh.pids
  nested : ∀ k ∈ t.typed, k.nested = t.tsh.handler.isSome
  turn : t.typed ≠ [] → t.waited = none

theorem fgpid_mem (h : Base s) (hpos : 0 < fgpid s.table.jobs) : fgpid s.table.jobs ∈ s.pids := by
  rcases fgpid_cases s.table.jobs with ⟨hzero, -⟩ | ⟨i, -, hi⟩
  · omega
  · rw [hi] at hpos ⊢
    exact h.table.mem_of_ne_zero (by omega)

theorem Aimed.alive_eq (h : Aimed t) (htyped : t.typed ≠ []) : t.alive = t.tsh.children := by
  apply List.filter_eq_self.mpr
  intro c _
  rw [h.turn htyped]
  cases c.proc <;> rfl

theorem Aimed.mem_alive (h : Aimed t) (hk : k ∈ t.typed) : ∃ c ∈ t.alive, c.pid = k.pid := by
  rw [h.alive_eq (List.ne_nil_of_mem hk)]
  exact List.mem_map.mp (h.mem k hk)

/-- `Kill` finds a child, and what the signal does to it is an event of the
shell. -/
theorem Aimed.kill_step (h : Aimed t) (htyped : t.typed = k :: typed)
    (hs : t.kill obeys = some t') :
    t'.typed = typed ∧ t'.waited = t.waited ∧
      (t'.tsh = t.tsh ∨ t.tsh.step (.child k.pid k.key.effect) = some t'.tsh) := by
  have hne : t.typed ≠ [] := by
    rw [htyped]
    nofun
  have hfound : (t.tsh.children.find? fun c => c.pid = k.pid).isSome := by
    obtain ⟨c, hc, hpid⟩ := List.mem_map.mp (h.mem k (by simp [htyped]))
    rw [List.find?_isSome]
    exact ⟨c, hc, by simpa using hpid⟩
  obtain ⟨c, hc⟩ := Option.isSome_iff_exists.mp hfound
  simp only [Terminal.kill, htyped, h.alive_eq hne, hc] at hs
  split at hs
  · cases hs
  · next hlive =>
      have hover : ¬t.tsh.pc.over = true := (not_or.mp hlive).1
      split at hs
      · cases hs
        exact ⟨rfl, rfl, .inl rfl⟩
      · next proc hproc =>
          cases hs
          refine ⟨rfl, rfl, .inr ?_⟩
          have hnext : c.proc.next k.key.effect = some proc := by
            split at hproc
            · exact hproc
            · cases hproc
          simp only [Tsh.step, if_neg hover, hc, hnext]

theorem allowed_of_shell (hs : t.shell e = some t') :
    (∀ k ∈ t.typed.head?, k.allows e) ∧ t.tsh.step e = some t'.tsh ∧ t'.typed = t.typed ∧
      (t'.waited = t.waited ∨ t'.waited = none) := by
  simp only [Terminal.shell] at hs
  split at hs
  · next hallowed =>
      obtain ⟨s, hstep, rfl⟩ := Option.map_eq_some_iff.mp hs
      refine ⟨hallowed.1, ?_⟩
      rw [hstep]
      cases e <;> exact ⟨rfl, rfl, by simp⟩
  · cases hs

theorem Aimed.child_of_step (h : Aimed t) (htyped : t.typed ≠ [])
    (hallowed : ∀ k ∈ t.typed.head?, k.allows e) (hdeliver : e ≠ .deliver)
    (hstep : t.tsh.step e = some s) : s.pids = t.tsh.pids ∧ s.handler = t.tsh.handler := by
  obtain ⟨k, rest, hcons⟩ := List.exists_cons_of_ne_nil htyped
  have hallow : k.allows e := hallowed k (by simp [hcons])
  have hnested := h.nested k (by simp [hcons])
  obtain ⟨-, hmoves⟩ := moves_of_step hstep
  cases hmoves with
  | deliver idle pending unblocked => exact absurd rfl hdeliver
  | reap c saved busy mem reportable =>
      rw [busy] at hnested
      simp [Typed.allows, hnested] at hallow
  | handlerReturn saved busy =>
      rw [busy] at hnested
      simp [Typed.allows, hnested] at hallow
  | child pid event proc => exact ⟨Base.pids_child _ _ _, rfl⟩
  | read line idle pc => cases hallow
  | advance s' idle next => cases hallow
  | forked pid line idle pc pos fresh => cases hallow
  | wake mask idle pc => cases hallow

theorem Aimed.shell (h : Aimed t) (hok : Undisturbed ok t (.shell e))
    (hs : t.shell e = some t') : Aimed t' := by
  obtain ⟨hallowed, hstep, htyped, hwaited⟩ := allowed_of_shell hs
  by_cases hne : t.typed = []
  · constructor <;> simp [htyped, hne]
  · obtain ⟨hpids, hhandler⟩ := h.child_of_step hne hallowed (hok.2 hne) hstep
    constructor <;> rw [htyped]
    · rw [hpids]
      exact h.mem
    · rw [hhandler]
      exact h.nested
    · intro _
      rcases hwaited with hsame | hnone
      · rw [hsame, h.turn hne]
      · exact hnone

theorem Aimed.waitpid (h : Aimed t) (hs : t.waitpid pid = some t') :
    Aimed t' ∧ t'.tsh = t.tsh := by
  simp only [Terminal.waitpid] at hs
  split at hs
  · next hcan =>
      cases hs
      have hnil : t.typed = [] := by
        cases htyped : t.typed with
        | nil => rfl
        | cons k rest =>
            have hnested := h.nested k (by simp [htyped])
            rw [hcan.1, hcan.2.2.1 k (by simp [htyped])] at hnested
            cases hnested
      exact ⟨⟨h.mem, h.nested, fun hne => absurd hnil hne⟩, rfl⟩
  · cases hs

theorem Aimed.press (h : Aimed t) (hbase : Base t.tsh) (hwaited : t.waited = none)
    (hs : t.press key = some t') : Aimed t' ∧ t'.tsh = t.tsh := by
  simp only [Terminal.press] at hs
  split at hs
  · cases hs
  · split at hs
    · cases hs
      exact ⟨h, rfl⟩
    · next hpos =>
        cases hs
        refine ⟨⟨?_, ?_, fun _ => hwaited⟩, rfl⟩
        · intro k hk
          rcases List.mem_cons.mp hk with rfl | hold
          · exact fgpid_mem hbase (Int.not_le.mp hpos)
          · exact h.mem k hold
        · intro k hk
          rcases List.mem_cons.mp hk with rfl | hold
          · rfl
          · exact h.nested k hold

theorem Aimed.kill (h : Aimed t) (hs : t.kill obeys = some t') :
    Aimed t' ∧ (t'.tsh = t.tsh ∨ ∃ pid event, t.tsh.step (.child pid event) = some t'.tsh) := by
  cases htyped : t.typed with
  | nil => simp [Terminal.kill, htyped] at hs
  | cons k typed =>
      obtain ⟨hrest, hwaited, heffect⟩ := h.kill_step htyped hs
      have hne : t.typed ≠ [] := by
        rw [htyped]
        nofun
      have hmem : ∀ k' ∈ t'.typed, k' ∈ t.typed := by
        rw [hrest, htyped]
        exact fun _ => List.mem_cons_of_mem k
      have hturn : t'.waited = none := by rw [hwaited, h.turn hne]
      rcases heffect with hsame | hstep
      · refine ⟨⟨?_, ?_, fun _ => hturn⟩, .inl hsame⟩
        · rw [hsame]
          exact fun k' hk' => h.mem k' (hmem k' hk')
        · rw [hsame]
          exact fun k' hk' => h.nested k' (hmem k' hk')
      · obtain ⟨-, hmoves⟩ := moves_of_step hstep
        have hkept : t'.tsh.pids = t.tsh.pids ∧ t'.tsh.handler = t.tsh.handler := by
          generalize hs' : t'.tsh = s' at hmoves
          cases hmoves with
          | child pid event proc => exact ⟨Base.pids_child _ _ _, rfl⟩
        refine ⟨⟨?_, ?_, fun _ => hturn⟩, .inr ⟨_, _, hstep⟩⟩
        · rw [hkept.1]
          exact fun k' hk' => h.mem k' (hmem k' hk')
        · rw [hkept.2]
          exact fun k' hk' => h.nested k' (hmem k' hk')

theorem Aimed.step (h : Aimed t) (hbase : Base t.tsh)
    (hchild : ∀ s pid event, ok s (.child pid event)) (hok : Undisturbed ok t b)
    (hs : t.step b = some t') :
    Aimed t' ∧ (t'.tsh = t.tsh ∨ ∃ e, ok t.tsh e ∧ t.tsh.step e = some t'.tsh) := by
  cases b with
  | shell e => exact ⟨h.shell hok hs, .inr ⟨e, hok.1, (allowed_of_shell hs).2.1⟩⟩
  | waitpid pid =>
      obtain ⟨haimed, hsame⟩ := h.waitpid hs
      exact ⟨haimed, .inl hsame⟩
  | press key =>
      obtain ⟨haimed, hsame⟩ := h.press hbase hok hs
      exact ⟨haimed, .inl hsame⟩
  | kill obeys =>
      obtain ⟨haimed, hsame | ⟨pid, event, hstep⟩⟩ := h.kill hs
      · exact ⟨haimed, .inl hsame⟩
      · exact ⟨haimed, .inr ⟨_, hchild _ _ _, hstep⟩⟩

theorem aimed_of_run (hchild : ∀ s pid event, ok s (.child pid event))
    (hrun : Run Terminal.step (Undisturbed ok) ⟨init blocked, [], none⟩ t) :
    Base t.tsh ∧ Aimed t := by
  apply hrun.invariant fun t => Base t.tsh ∧ Aimed t
  · exact ⟨Base.init blocked, by simp, by simp, by simp⟩
  · rintro t b t' ⟨hbase, haimed⟩ hok hs
    obtain ⟨haimed', hsame | ⟨e, -, hstep⟩⟩ := haimed.step hbase hchild hok hs
    · exact ⟨by rwa [hsame], haimed'⟩
    · exact ⟨hbase.step hstep, haimed'⟩

theorem shell_run (hchild : ∀ s pid event, ok s (.child pid event))
    (hrun : Run Terminal.step (Undisturbed ok) ⟨init blocked, [], none⟩ t) :
    Run Tsh.step ok (init blocked) t.tsh := by
  apply Run.simulated Terminal.tsh hrun
  intro t b t' hprev hok hs
  obtain ⟨hbase, haimed⟩ := aimed_of_run hchild hprev
  exact (haimed.step hbase hchild hok hs).2

/-! ## While the shell waits -/

theorem child_sound (s : Tsh) (pid : Int) (event : ChildEvent) :
    HasRoom s (.child pid event) ∧ NoFgByPid s (.child pid event) := by
  constructor
  · intro _ _ _ he
    cases he
  · intro _ he
    cases he

theorem obeys_running (key : Key) :
    ∃ proc, Proc.running.next key.effect = some proc ∧ proc ≠ .running := by
  cases key <;> exact ⟨_, rfl, nofun⟩

theorem press_waiting (h : Steady t.tsh) (hpc : t.tsh.pc = .suspended mask)
    (hidle : t.tsh.handler = none) (htyped : t.typed = [])
    (hone : OneFg t.tsh.table.jobs t.tsh.flag pid) (hpos : 0 < pid) :
    t.press key = some { t with typed := [⟨pid, key, false⟩] } := by
  have hblocked : t.tsh.blocked = ∅ := by simpa [hidle] using h.waking.unblocked mask hpc
  simp [Terminal.press, htyped, hpc, hblocked, hone.fgpid_eq, hidle, At.over, Int.not_le.mpr hpos]

theorem find_child (h : Steady s) {c : Child} (hc : c ∈ s.children) :
    (s.children.find? fun d => d.pid = c.pid) = some c := by
  have hfound : (s.children.find? fun d => d.pid = c.pid).isSome := by
    rw [List.find?_isSome]
    exact ⟨c, hc, by simp⟩
  obtain ⟨d, hd⟩ := Option.isSome_iff_exists.mp hfound
  have hpid : d.pid = c.pid := by simpa using List.find?_some hd
  rw [hd, h.child_eq (List.mem_of_find?_eq_some hd) hc hpid]

theorem kill_foreground {c : Child} {proc : Proc} (h : Steady t.tsh)
    (hpc : t.tsh.pc = .suspended mask) (hidle : t.tsh.handler = none) (hwaited : t.waited = none)
    (hc : c ∈ t.tsh.children) (hproc : c.proc.next key.effect = some proc) :
    { t with typed := [⟨c.pid, key, false⟩] }.kill true = some { t with
      tsh := { t.tsh with
        children := t.tsh.children.map fun d => if d.pid = c.pid then { d with proc := proc } else d
        pending := true }
      typed := [] } := by
  have halive : Terminal.alive { t with typed := [⟨c.pid, key, false⟩] } = t.tsh.children := by
    apply List.filter_eq_self.mpr
    intro d _
    simp only [hwaited]
    cases d.proc <;> rfl
  have hlive : ¬(t.tsh.pc.over = true ∨ false ≠ t.tsh.handler.isSome) := by
    simp [hpc, hidle, At.over]
  simp only [Terminal.kill, if_neg hlive, halive, find_child h hc]
  simp [hwaited, hproc]

theorem undisturbed_idle (hok : ok t.tsh e) (htyped : t.typed = []) :
    Undisturbed ok t (.shell e) := ⟨hok, fun h => absurd htyped h⟩

theorem launched_terminal :
    ∃ t mask, Run Terminal.step (Undisturbed fun s e => HasRoom s e ∧ NoFgByPid s e)
        ⟨init ∅, [], none⟩ t ∧ t.tsh.pc = .suspended mask ∧ t.tsh.handler = none ∧
      t.typed = [] ∧ t.waited = none ∧ FgRuns t.tsh := by
  have hread : Run Terminal.step (Undisturbed fun s e => HasRoom s e ∧ NoFgByPid s e)
      ⟨init ∅, [], none⟩ ⟨{ init ∅ with pc := .block (launchLine false) }, [], none⟩ :=
    Run.start.next (a := .shell (.read (launchLine false)))
      (undisturbed_idle ⟨nofun, noFgByPid_launch _ _⟩ rfl) rfl
  have hfork := hread.next (a := .shell .advance) (undisturbed_idle ⟨nofun, nofun⟩ rfl) rfl
  have hclear := hfork.next (a := .shell (.forked 100)) (undisturbed_idle ⟨nofun, nofun⟩ rfl) rfl
  have hadd := hclear.next (a := .shell .advance) (undisturbed_idle ⟨nofun, nofun⟩ rfl) rfl
  have hunblock := hadd.next (a := .shell .advance)
    (undisturbed_idle ⟨fun _ _ _ _ => ⟨0, rfl⟩, nofun⟩ rfl) rfl
  have hwaitfg := hunblock.next (a := .shell .advance) (undisturbed_idle ⟨nofun, nofun⟩ rfl) rfl
  have hloop := hwaitfg.next (a := .shell .advance) (undisturbed_idle ⟨nofun, nofun⟩ rfl) rfl
  have hwaiting := hloop.next (a := .shell .advance) (undisturbed_idle ⟨nofun, nofun⟩ rfl) rfl
  exact ⟨_, _, hwaiting, rfl, rfl, rfl, rfl, ⟨0, rfl, ⟨100, .running⟩, by simp, rfl, rfl⟩⟩

/-! ## The runs of the terminal -/

/-- With its keyboard handlers the shell has the runs that it has without them,
and `Kill` finds the foreground job, as long as the job is not reaped in between. -/
theorem terminal_runs (hchild : ∀ s pid event, ok s (.child pid event))
    (hrun : Run Terminal.step (Undisturbed ok) ⟨init blocked, [], none⟩ t) :
    Run Tsh.step ok (init blocked) t.tsh ∧ ∀ k ∈ t.typed, ∃ c ∈ t.alive, c.pid = k.pid :=
  ⟨shell_run hchild hrun, fun _ hk => (aimed_of_run hchild hrun).2.mem_alive hk⟩

theorem terminal_runs_waiting :
    ∃ t : Terminal, t.typed ≠ [] ∧
      Run Tsh.step (fun s e => HasRoom s e ∧ NoFgByPid s e) (init ∅) t.tsh ∧
        ∀ k ∈ t.typed, ∃ c ∈ t.alive, c.pid = k.pid := by
  obtain ⟨t, mask, hrun, hpc, hidle, htyped, hwaited, hruns⟩ := launched_terminal
  have h : Steady t.tsh := Steady.of_run (shell_run child_sound hrun)
  obtain ⟨pid, hone⟩ := h.unflagged (by rw [hpc]; rfl) hruns
  have hpos : 0 < pid := (hone.found h.base.table).1
  have hok : Undisturbed (fun s e => HasRoom s e ∧ NoFgByPid s e) t (.press .int) := hwaited
  have hpressed := hrun.next hok (press_waiting h hpc hidle htyped hone hpos)
  exact ⟨_, by simp, terminal_runs child_sound hpressed⟩

/-- Whether the shell is gone after a job has been started in the foreground and
these events have followed. -/
def endsShell (events : List TerminalEvent) : Bool :=
  match replay Terminal.step (fun _ _ => True) ⟨init ∅, [], none⟩
    ((launch false 100 ++ [Event.advance, .advance]).map .shell ++ events) with
  | some t => t.tsh.pc.over
  | none => false

/-- The job ends by itself and is reaped between the statements of the handler,
or the handler runs between `waitpid` and `deletejob`. -/
theorem races_end_shell :
    endsShell [.press .int, .shell (.child 100 (.ends .exited)), .shell .deliver,
        .shell (.reap 100), .shell .handlerReturn, .kill true] ∧
      endsShell [.shell (.child 100 (.ends .exited)), .shell .deliver, .waitpid 100,
        .press .int, .kill true] := by
  decide +kernel

/-- Ctrl-c or ctrl-z brings the prompt back when the job in the foreground obeys
it. -/
theorem key_returns
    (hrun : Run Terminal.step (Undisturbed fun s e => HasRoom s e ∧ NoFgByPid s e)
      ⟨init blocked, [], none⟩ t)
    (hpc : t.tsh.pc = .suspended mask) (hidle : t.tsh.handler = none) (htyped : t.typed = [])
    (hwaited : t.waited = none) (hruns : FgRuns t.tsh) (key : Key) :
    ∃ t₁ t₂ s', t.press key = some t₁ ∧ t₁.kill true = some t₂ ∧
      Run Tsh.step (fun _ e => e.own) t₂.tsh s' ∧ s'.pc = .prompt := by
  have h : Steady t.tsh := Steady.of_run (shell_run child_sound hrun)
  obtain ⟨pid, hone⟩ := h.unflagged (by rw [hpc]; rfl) hruns
  obtain ⟨i, hi, c, hc, hci, hproc⟩ := hruns
  obtain ⟨proc, hnext, hstops⟩ := obeys_running key
  rw [← hproc] at hnext
  have hpid : pid = c.pid := by
    obtain ⟨-, j, -, hj, hall⟩ := id hone
    rw [hci, hall i hi, hj]
  rw [hpid] at hone
  have hpos : 0 < c.pid := h.base.table.pos _ (List.mem_map_of_mem hc)
  have hstep : t.tsh.step (.child c.pid key.effect) = some { t.tsh with
      children := t.tsh.children.map fun d => if d.pid = c.pid then { d with proc := proc } else d
      pending := true } := by
    simp [Tsh.step, hpc, At.over, find_child h hc, hnext]
  have hok := child_sound t.tsh c.pid key.effect
  have hsteady := h.step hok.1 hok.2 hstep
  have hquiet : ¬FgRuns { t.tsh with
      children := t.tsh.children.map fun d => if d.pid = c.pid then { d with proc := proc } else d
      pending := true } := by
    rintro ⟨j, hj, d, hd, hdj, hruns⟩
    obtain ⟨d, hd, rfl⟩ := List.mem_map.mp hd
    have hji : j = i := by
      obtain ⟨-, k, -, -, hall⟩ := id hone
      rw [hall j hj, hall i hi]
    split at hruns
    · exact hstops hruns
    · next hne =>
        rw [if_neg hne, hji] at hdj
        exact hne (hdj.trans hci.symm)
  obtain ⟨s', hown, hprompt⟩ := hsteady.returns hpc hquiet
  exact ⟨_, _, s', press_waiting h hpc hidle htyped hone hpos,
    kill_foreground h hpc hidle hwaited hc hnext, hown, hprompt⟩

theorem key_returns_int :
    ∃ t t₁ t₂ : Terminal, ∃ s', t.press .int = some t₁ ∧ t₁.kill true = some t₂ ∧
      Run Tsh.step (fun _ e => e.own) t₂.tsh s' ∧ s'.pc = .prompt := by
  obtain ⟨t, mask, hrun, hpc, hidle, htyped, hwaited, hruns⟩ := launched_terminal
  exact ⟨t, key_returns hrun hpc hidle htyped hwaited hruns .int⟩

end CsappLabs.Shell
