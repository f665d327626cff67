import CsappLabs.Proxy.Request.RelayReads

/-!
# One response for each request

An error page ends the request for an empty line and for a method other than
`GET`.  After the page for a wrong version the request is served all the same,
and the client may be sent a second response.
-/

namespace CsappLabs.Proxy.Request

open CsappLabs.Foundation Cache

variable {env : Env} {f : Frame} {s s' : State} {key : Key} {request : List UInt8}
  {rp : Rio} {url version cause : Line} {client origin : List Delivery}
  {errnum shortmsg longmsg : List UInt8} {texts : List (List UInt8)}
  {page : List (List UInt8) × Except Stop Unit} {rest : Outcome State}

/-! ## The error page -/

/-- The cause has a terminator, and the longest text of the page fits into the
array of `reply_client_error`. -/
def PageFits (cause : Line) (longmsg : List UInt8) : Prop :=
  ∃ c, cause.str 0 = some c ∧ longmsg.length + c.strlen + 11 < maxline

def IsErrorPage (writes : List (List UInt8)) : Prop :=
  ∃ cause errnum shortmsg longmsg, writes = errorPage cause errnum shortmsg longmsg

theorem writeAll_of_fits (h : ∀ text ∈ texts, text.length < maxline) :
    writeAll texts = (texts, .ok ()) := by
  induction texts with
  | nil => rfl
  | cons text texts ih =>
      rw [List.forall_mem_cons] at h
      simp only [writeAll, if_pos h.1, ih h.2]

theorem writeAll_of_overflow (h : ∃ text ∈ texts, ¬text.length < maxline) :
    (writeAll texts).1.length < texts.length ∧ ∃ e, (writeAll texts).2 = .error e := by
  induction texts with
  | nil =>
      obtain ⟨text, hmem, -⟩ := h
      cases hmem
  | cons text texts ih =>
      by_cases hlt : text.length < maxline
      · obtain ⟨long, hmem, hlong⟩ := h
        cases List.mem_cons.mp hmem with
        | inl heq => exact absurd (heq ▸ hlt) hlong
        | inr hmem =>
            have hrest := ih ⟨long, hmem, hlong⟩
            simp only [writeAll, if_pos hlt, List.length_cons]
            exact ⟨Nat.succ_lt_succ hrest.1, hrest.2⟩
      · simp only [writeAll, if_neg hlt, List.length_cons, List.length_nil]
        exact ⟨Nat.succ_pos _, _, rfl⟩

theorem length_causeText (cause longmsg : List UInt8) :
    (chars "<p>" ++ longmsg ++ chars ": " ++ cause ++ chars "</p>" ++ crlf).length =
      longmsg.length + cause.length + 11 := by
  have hopen : (chars "<p>").length = 3 := by decide
  have hcolon : (chars ": ").length = 2 := by decide
  have hclose : (chars "</p>").length = 4 := by decide
  have hcrlf : crlf.length = 2 := rfl
  simp only [List.length_append, hopen, hcolon, hclose, hcrlf]
  omega

theorem replyClientError_of_fits (h : PageFits cause longmsg)
    (hshort : errnum.length + shortmsg.length ≤ 100) :
    ∃ writes, replyClientError cause errnum shortmsg longmsg = (writes, .ok ()) ∧
      IsErrorPage writes := by
  obtain ⟨c, hc, hlen⟩ := h
  refine ⟨errorPage c.bytes errnum shortmsg longmsg, ?_, _, _, _, _, rfl⟩
  simp only [replyClientError, hc]
  apply writeAll_of_fits
  have hmax : maxline = 8192 := rfl
  have h₁ : (chars "HTTP/1.0 ").length = 9 := by decide
  have h₂ : (chars " ").length = 1 := by decide
  have hcrlf : crlf.length = 2 := rfl
  simp only [errorPage, List.forall_mem_cons, length_causeText]
  refine ⟨?_, by decide, by decide, by decide, ?_, hlen, by decide, by decide, nofun⟩
  · simp only [List.length_append, h₁, h₂, hcrlf]
    omega
  · simp only [List.length_append, h₂, hcrlf]
    omega

theorem replyClientError_of_overflow (errnum shortmsg : List UInt8)
    (h : ¬PageFits cause longmsg) :
    ¬IsErrorPage (replyClientError cause errnum shortmsg longmsg).1 ∧
      ∃ e, (replyClientError cause errnum shortmsg longmsg).2 = .error e := by
  have hshort : (replyClientError cause errnum shortmsg longmsg).1.length < 8 ∧
      ∃ e, (replyClientError cause errnum shortmsg longmsg).2 = .error e := by
    cases hc : cause.str 0 with
    | none =>
        simp only [replyClientError, hc]
        exact ⟨by simp [errorPage], _, rfl⟩
    | some c =>
        simp only [replyClientError, hc]
        apply @writeAll_of_overflow (errorPage c.bytes errnum shortmsg longmsg)
        refine ⟨chars "<p>" ++ longmsg ++ chars ": " ++ c.bytes ++ chars "</p>" ++ crlf,
          by simp [errorPage], fun hlt => h ⟨c, hc, ?_⟩⟩
        rwa [length_causeText] at hlt
  refine ⟨fun hpage => ?_, hshort.2⟩
  obtain ⟨cause', errnum', shortmsg', longmsg', heq⟩ := hpage
  rw [heq] at hshort
  exact absurd hshort.1 (by simp [errorPage])

/-! ## The events of one request -/

def pages (events : List Event) : List (List (List UInt8)) :=
  events.filterMap fun
    | .errorPage writes => some writes
    | _ => none

def connections (events : List Event) : List (CString × CString) :=
  events.filterMap fun
    | .connect host port => some (host, port)
    | _ => none

def answers (events : List Event) : Nat :=
  events.countP fun
    | .cached _ => true
    | .relayed _ => true
    | _ => false

/-- The client is sent one response at most, either an error page and then
nothing is sent to an origin server, or an answer. -/
structure OneResponse (events : List Event) : Prop where
  single : (pages events).length + answers events ≤ 1
  pageOrAnswer : (∃ page, pages events = [page] ∧ IsErrorPage page) ∧ connections events = [] ∨
    pages events = [] ∧ answers events ≤ 1
  notForwarded : pages events ≠ [] → connections events = []

theorem oneResponse_nil : OneResponse [] where
  single := Nat.zero_le 1
  pageOrAnswer := .inr ⟨rfl, Nat.zero_le 1⟩
  notForwarded h := absurd rfl h

theorem oneResponse_page {writes : List (List UInt8)} :
    OneResponse [.errorPage writes] ↔ IsErrorPage writes := by
  constructor
  · intro h
    cases h.pageOrAnswer with
    | inl hpage =>
        obtain ⟨⟨page, heq, hpage⟩, -⟩ := hpage
        exact (List.singleton_inj.mp heq) ▸ hpage
    | inr hnone => cases hnone.1
  · intro h
    exact ⟨Nat.le_refl 1, .inl ⟨⟨writes, rfl, h⟩, rfl⟩, fun _ => rfl⟩

inductive Answer : List Event → Prop
  | cached (bytes : List UInt8) : Answer [.cached bytes]
  | relayed (host port : CString) (bytes : List UInt8) (writes : List (List UInt8)) :
      Answer [.connect host port, .request bytes, .relayed writes]

theorem Answer.oneResponse {events : List Event} (h : Answer events) : OneResponse events := by
  cases h with
  | cached bytes => exact ⟨Nat.le_refl 1, .inr ⟨rfl, Nat.le_refl 1⟩, fun h => absurd rfl h⟩
  | relayed host port bytes writes =>
      exact ⟨Nat.le_refl 1, .inr ⟨rfl, Nat.le_refl 1⟩, fun h => absurd rfl h⟩

theorem Answer.not_oneResponse {events : List Event} (h : Answer events)
    (writes : List (List UInt8)) : ¬OneResponse (.errorPage writes :: events) := by
  intro hone
  have hsingle : (pages (.errorPage writes :: events)).length +
      answers (.errorPage writes :: events) ≤ 1 := hone.single
  cases h <;> exact absurd hsingle (by simp [pages, answers])

/-! ## Serving -/

def Answered (env : Env) (s : State) (key : Key) : Prop :=
  match readCache env.ops s key with
  | .error _ => False
  | .ok (some _, _) => True
  | .ok (none, _) => (env.openClientfd key.host key.port).isSome

theorem answer_of_answered (h : Answered env s key) : Answer (answer env f s key request).events := by
  unfold Answered at h
  unfold answer
  cases hread : readCache env.ops s key with
  | error e =>
      rw [hread] at h
      exact absurd h id
  | ok r =>
      obtain ⟨value, s₁⟩ := r
      simp only [hread] at h
      cases value with
      | some v => exact .cached _
      | none =>
          obtain ⟨origin, horigin⟩ := Option.isSome_iff_exists.mp h
          obtain ⟨buf, hrelay, -⟩ := relay_eq (rioReadinitb origin) f.responseBuf.bytes
          simp only [horigin, forward, hrelay]
          exact .relayed _ _ _ _

theorem answer_of_not_answered (h : ¬Answered env s key) :
    (answer env f s key request).events = [] := by
  unfold Answered at h
  unfold answer
  cases hread : readCache env.ops s key with
  | error e => rfl
  | ok r =>
      obtain ⟨value, s₁⟩ := r
      simp only [hread] at h
      cases value with
      | some v => exact absurd trivial h
      | none =>
          rw [Option.not_isSome_iff_eq_none] at h
          simp only [h]

def replyEvents (key : Key) (request : List UInt8) : Reply → List Event
  | .cached bytes => [.cached bytes]
  | .relayed writes => [.connect key.host key.port, .request request, .relayed writes]

theorem answer_of_respond {reply : Reply}
    (hopen : env.openClientfd key.host key.port = some origin)
    (h : respond env.ops s key origin f.responseBuf.bytes f.behind = .ok (reply, s')) :
    answer env f s key request = ⟨replyEvents key request reply, .ok s'⟩ := by
  unfold respond at h
  unfold answer
  cases hread : readCache env.ops s key with
  | error e =>
      rw [hread] at h
      cases h
  | ok r =>
      obtain ⟨value, s₁⟩ := r
      simp only [hread, bind, Except.bind] at h ⊢
      cases value with
      | some v =>
          obtain ⟨rfl, rfl⟩ := Prod.mk.inj (Except.ok.inj h)
          rfl
      | none =>
          simp only [hopen, forward, orFault]
          cases hrelay : relay (rioReadinitb origin) f.responseBuf.bytes with
          | error e =>
              rw [hrelay] at h
              cases h
          | ok relayed =>
              simp only [hrelay] at h
              cases hv : CString.ofBuffer (relayed.2 ++ f.behind) with
              | none =>
                  rw [hv] at h
                  cases h
              | some v =>
                  rw [hv] at h
                  cases hput : insertCache env.ops s₁ key.host key.port key.path (some v) with
                  | error e =>
                      simp only [hput] at h
                      cases h
                  | ok s₂ =>
                      simp only [hput] at h
                      obtain ⟨rfl, rfl⟩ := Prod.mk.inj (Except.ok.inj h)
                      simp only [hv, hput, bind, Except.bind]
                      rfl

def Served (env : Env) (f : Frame) (s : State) (rp : Rio) (url version : Line) : Prop :=
  ∃ key request, prepare f rp url version = .ok (some (key, request)) ∧ Answered env s key

theorem serve_of_served (h : Served env f s rp url version) :
    Answer (serve env f s rp url version).events := by
  obtain ⟨key, request, heq, hanswered⟩ := h
  simp only [serve, heq]
  exact answer_of_answered hanswered

theorem serve_of_not_served (h : ¬Served env f s rp url version) :
    (serve env f s rp url version).events = [] := by
  unfold serve
  split
  · rfl
  · rfl
  · rename_i key request heq
    apply answer_of_not_answered
    intro hanswered
    exact h ⟨key, request, heq, hanswered⟩

/-! ## The whole request -/

/-- The version is accepted, or nothing can be served after its error page. -/
def StopsAtVersion (env : Env) (f : Frame) (s : State) (r : RequestLine) (rp : Rio)
    (v : CString) : Prop :=
  wrongVersion v → ∀ version, modifiedVersion r.version v = some version →
    ¬Served env f s rp r.url version

/-- The error page fits where the request stops with one, and the request does
stop with it. -/
def RespondsOnce (env : Env) (f : Frame) (s : State) (client : List Delivery) : Prop :=
  match readRequest f client with
  | .ok .blank => PageFits f.method (chars "Bad Request")
  | .ok (.line r rp) =>
      match r.method.str 0, r.url.str 0, r.version.str 0 with
      | some method, some _, some v =>
          if ¬sameLetters method.bytes (chars "GET") then
            PageFits r.method (chars "Tiny Does not implement this method")
          else StopsAtVersion env f s r rp v
      | _, _, _ => True
  | _ => True

theorem replyThen_nil_iff (hshort : errnum.length + shortmsg.length ≤ 100)
    (hrest : rest.events = []) :
    OneResponse (replyThen (replyClientError cause errnum shortmsg longmsg) rest).events ↔
      PageFits cause longmsg := by
  by_cases hfits : PageFits cause longmsg
  · obtain ⟨writes, heq, hpage⟩ := replyClientError_of_fits hfits hshort
    rw [iff_true_right hfits, replyThen, heq]
    simp only [hrest, oneResponse_page]
    exact hpage
  · obtain ⟨hpage, e, heq⟩ := replyClientError_of_overflow errnum shortmsg hfits
    rw [iff_false_right hfits, replyThen, heq]
    simp only [oneResponse_page]
    exact hpage

theorem pageFits_of_get {r : RequestLine} {method : CString} (hm : r.method.str 0 = some method)
    (hget : sameLetters method.bytes (chars "GET")) :
    PageFits r.method (chars "Wrong Version Format") := by
  have hlen : method.bytes.length = (chars "GET").length := length_eq_of_sameLetters hget
  have hthree : (chars "GET").length = 3 := by decide
  have hmsg : (chars "Wrong Version Format").length = 20 := by decide
  have hmax : maxline = 8192 := rfl
  exact ⟨method, hm, by rw [CString.strlen, hlen, hthree, hmsg, hmax]; decide⟩

theorem replyThen_iff (hshort : errnum.length + shortmsg.length ≤ 100)
    (hfits : PageFits cause longmsg) (hrest : Answer rest.events ∨ rest.events = []) :
    OneResponse (replyThen (replyClientError cause errnum shortmsg longmsg) rest).events ↔
      rest.events = [] := by
  cases hrest with
  | inr hnil => rw [replyThen_nil_iff hshort hnil, iff_true_right hnil]; exact hfits
  | inl hanswer =>
      obtain ⟨writes, heq, -⟩ := replyClientError_of_fits hfits hshort
      have hne : rest.events ≠ [] := by
        intro hnil
        rw [hnil] at hanswer
        cases hanswer
      rw [iff_false_right hne, replyThen, heq]
      exact hanswer.not_oneResponse writes

theorem modified_rest (env : Env) (f : Frame) (s : State) (r : RequestLine) (rp : Rio)
    (v : CString) :
    ∃ rest : Outcome State, modifyThenServe env f s r rp v =
        (if wrongVersion v then
          replyThen (replyClientError r.method (chars "501") (chars "Not Implemented")
            (chars "Wrong Version Format")) rest
        else rest) ∧
      (Answer rest.events ∨ rest.events = []) ∧
      (rest.events = [] ↔ ∀ version, modifiedVersion r.version v = some version →
        ¬Served env f s rp r.url version) := by
  refine ⟨_, rfl, ?_⟩
  cases hv : modifiedVersion r.version v with
  | none => exact ⟨.inr rfl, fun _ => nofun, fun _ => rfl⟩
  | some version =>
      by_cases hserved : Served env f s rp r.url version
      · have hanswer := serve_of_served hserved
        refine ⟨.inl hanswer, fun hnil => ?_, fun hall => absurd hserved (hall version rfl)⟩
        simp only [hnil] at hanswer
        cases hanswer
      · have hnil := serve_of_not_served hserved
        refine ⟨.inr hnil, fun _ version' heq => ?_, fun _ => hnil⟩
        exact Option.some.inj heq ▸ hserved

theorem modifyThenServe_iff {r : RequestLine} {method v : CString}
    (hm : r.method.str 0 = some method) (hget : sameLetters method.bytes (chars "GET")) :
    OneResponse (modifyThenServe env f s r rp v).events ↔ StopsAtVersion env f s r rp v := by
  obtain ⟨rest, heq, hanswer, hnil⟩ := modified_rest env f s r rp v
  rw [heq, StopsAtVersion, ← hnil]
  cases wrongVersion v with
  | true => simpa using replyThen_iff (by decide) (pageFits_of_get hm hget) hanswer
  | false =>
      rw [if_neg Bool.false_ne_true]
      cases hanswer with
      | inl hanswer => exact iff_of_true hanswer.oneResponse nofun
      | inr hnone => exact iff_of_true (hnone ▸ oneResponse_nil) nofun

/-- Exactly then the client gets one response. -/
theorem one_response_iff (env : Env) (f : Frame) (s : State) (client : List Delivery) :
    OneResponse (processRequest env f s client).events ↔ RespondsOnce env f s client := by
  unfold processRequest RespondsOnce
  cases readRequest f client with
  | error e => exact iff_of_true oneResponse_nil trivial
  | ok first =>
      cases first with
      | ended => exact iff_of_true oneResponse_nil trivial
      | blank => exact replyThen_nil_iff (by decide) rfl
      | line r rp =>
          dsimp only
          generalize hm : r.method.str 0 = method, r.url.str 0 = url, r.version.str 0 = version
          match method, url, version, hm with
          | none, _, _, _ => exact iff_of_true oneResponse_nil trivial
          | some _, none, _, _ => exact iff_of_true oneResponse_nil trivial
          | some _, some _, none, _ => exact iff_of_true oneResponse_nil trivial
          | some method, some _, some v, hm =>
              by_cases hget : sameLetters method.bytes (chars "GET")
              · simp only [hget, not_true_eq_false, if_false]
                exact modifyThenServe_iff hm hget
              · simp only [hget]
                exact replyThen_nil_iff (by decide) rfl

def zeros : Line := ⟨List.replicate maxline 0, List.length_replicate⟩

def wrongVersionOutcome : Outcome State :=
  processRequest ⟨semaphores, fun _ _ => some []⟩
    ⟨zeros, zeros, zeros, zeros, zeros, zeros, zeros, zeros, zeros, [0]⟩
    (initLRUCache fun _ => 1)
    [.bytes 71 (chars "ET http://h:1/ HTTQ/1.0\r\n\r\n")]

theorem wrongVersionOutcome_responses :
    (pages wrongVersionOutcome.events).length + answers wrongVersionOutcome.events = 2 := by
  decide +kernel

/-- The request with the wrong version is forwarded after the error page. -/
theorem error_page_then_forwarded :
    ¬∀ env f s client, OneResponse (processRequest env f s client).events := by
  intro hall
  have hone : OneResponse wrongVersionOutcome.events := hall _ _ _ _
  have hsingle := hone.single
  rw [wrongVersionOutcome_responses] at hsingle
  exact absurd hsingle (by decide)

end CsappLabs.Proxy.Request
