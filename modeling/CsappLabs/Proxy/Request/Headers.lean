import CsappLabs.Proxy.Request.HeaderReads

/-!
# The request for the origin server

The lines of the client are passed on, and a default line is added for each of
four fields that the client did not send.  `change_request` looks for the names
of the fields anywhere in a line, in one spelling, and for the next one only
where those before it are not found.
-/

namespace CsappLabs.Proxy.Request

open CsappLabs.Foundation Cache

def Field.name : Field → List UInt8
  | host => chars "Host"
  | userAgent => chars "User-Agent"
  | connection => chars "Connection"
  | proxyConnection => chars "Proxy-Connection"

/-- What stands before the first colon is the name, in upper or lower case. -/
def HasField (field : Field) (line : List UInt8) : Prop :=
  58 ∈ line ∧ sameLetters (line.takeWhile (· ≠ 58)) field.name

instance (field : Field) (line : List UInt8) : Decidable (HasField field line) :=
  inferInstanceAs (Decidable (_ ∧ _))

structure HeaderLine where
  text : List UInt8
  nonempty : text ≠ []
  noLf : 10 ∉ text
  fits : (text ++ crlf).length ≤ maxline - 1

def HeaderLine.line (l : HeaderLine) : List UInt8 := l.text ++ crlf

def block (lines : List HeaderLine) : List UInt8 := (lines.map HeaderLine.line).flatten ++ crlf

def Sends (lines : List HeaderLine) (field : Field) : Prop := ∃ l ∈ lines, HasField field l.line

instance (lines : List HeaderLine) (field : Field) : Decidable (Sends lines field) :=
  inferInstanceAs (Decidable (∃ l ∈ lines, _))

def expectedRequest (uri version hostname : CString) (lines : List HeaderLine) : List UInt8 :=
  requestLine uri version ++ (lines.map HeaderLine.line).flatten ++
    defaults (fun field => decide (Sends lines field)) hostname

def noted (line : List UInt8) : Option Field :=
  if contains line "User-Agent:" then some .userAgent
  else if contains line "Proxy-Connection:" then some .proxyConnection
  else if contains line "Connection:" then some .connection
  else if contains line "Host:" then some .host
  else none

variable {h : Headers} {rp : Rio} {lines : List HeaderLine} {rest : List UInt8}
  {uri version hostname : CString} {sent sent' : Field → Bool}

/-! ## The flags -/

theorem sent_note (h : Headers) (line : List UInt8) (field : Field) :
    (h.note line).sent field = (h.sent field || decide (noted line = some field)) := by
  unfold Headers.note noted
  split
  · cases field <;> simp [Headers.sent]
  split
  · cases field <;> simp [Headers.sent]
  split
  · cases field <;> simp [Headers.sent]
  split
  · cases field <;> simp [Headers.sent]
  · simp

theorem sent_noteAll (texts : List (List UInt8)) (h : Headers) (field : Field) :
    (noteAll texts h).sent field = true ↔
      h.sent field = true ∨ ∃ line ∈ texts, noted line = some field := by
  induction texts generalizing h with
  | nil => simp [noteAll]
  | cons line texts ih =>
      show (noteAll texts (h.note line)).sent field = true ↔ _
      rw [ih, sent_note, Bool.or_eq_true, decide_eq_true_iff, List.exists_mem_cons_iff, or_assoc]

/-! ## The default lines -/

theorem head_unlessSent {text x : List UInt8} {heads : List (Option UInt8)} (hne : text ≠ [])
    (s : Bool) (hx : x.head? ∈ heads) : (unlessSent s text ++ x).head? ∈ text.head? :: heads := by
  obtain ⟨b, text, rfl⟩ := List.exists_cons_of_ne_nil hne
  cases s
  · exact List.mem_cons_self
  · exact List.mem_cons_of_mem _ hx

theorem unlessSent_cancel {s s' : Bool} {text x y : List UInt8} {heads : List (Option UInt8)}
    (hne : text ≠ []) (hx : x.head? ∈ heads) (hy : y.head? ∈ heads) (hhead : text.head? ∉ heads)
    (heq : unlessSent s text ++ x = unlessSent s' text ++ y) : s = s' ∧ x = y := by
  obtain ⟨b, text, rfl⟩ := List.exists_cons_of_ne_nil hne
  cases s <;> cases s'
  · exact ⟨rfl, List.append_cancel_left heq⟩
  · exact absurd (congrArg List.head? heq ▸ hy) hhead
  · exact absurd (congrArg List.head? heq ▸ hx) hhead
  · exact ⟨rfl, heq⟩

/-- The first letters of the lines tell which ones they are. -/
theorem defaults_inj (heq : defaults sent hostname = defaults sent' hostname) : sent = sent' := by
  have hcrlf : crlf.head? ∈ [some 13] := by decide
  have hpc (s : Bool) := head_unlessSent (show proxyConnectionHdr ≠ [] by decide) s hcrlf
  have hc (s t : Bool) := head_unlessSent (show connectionHdr ≠ [] by decide) s (hpc t)
  have hua (s t u : Bool) := head_unlessSent (show userAgentHdr ≠ [] by decide) s (hc t u)
  have hhost : (hostLine hostname).head? = some 72 := rfl
  obtain ⟨h₁, heq⟩ := unlessSent_cancel (by simp [hostLine, crlf]) (hua _ _ _) (hua _ _ _)
    (by rw [hhost]; decide) heq
  obtain ⟨h₂, heq⟩ := unlessSent_cancel (by decide) (hc _ _) (hc _ _) (by decide) heq
  obtain ⟨h₃, heq⟩ := unlessSent_cancel (by decide) (hpc _) (hpc _) (by decide) heq
  obtain ⟨h₄, -⟩ := unlessSent_cancel (by decide) hcrlf hcrlf (by decide) heq
  funext field
  cases field with
  | host => exact h₁
  | userAgent => exact h₂
  | connection => exact h₃
  | proxyConnection => exact h₄

/-! ## The lines that are read -/

theorem stringOf_line_ne (l : HeaderLine) : stringOf l.line ≠ crlf := by
  intro hblank
  have hstart : crlf <+: l.line := by
    rw [← hblank]
    exact List.takeWhile_prefix _
  obtain ⟨text, hne, hlf, hfits⟩ := l
  cases text with
  | nil => exact hne rfl
  | cons b text =>
      have htail : [10] <+: text ++ crlf := (List.cons_prefix_cons.mp hstart).2
      cases text with
      | nil => exact absurd (List.cons_prefix_cons.mp htail).1 (by decide)
      | cons c text =>
          obtain ⟨rfl, -⟩ := List.cons_prefix_cons.mp htail
          simp at hlf

theorem stringOf_line (l : HeaderLine) (hnul : 0 ∉ l.text) : stringOf l.line = l.line := by
  have hcrlf : crlf.takeWhile (· ≠ 0) = crlf := by decide
  rw [stringOf, HeaderLine.line, CString.takeWhile_append hnul, hcrlf]

theorem map_stringOf (hnul : ∀ l ∈ lines, 0 ∉ l.text) :
    (lines.map fun l => stringOf l.line) = lines.map HeaderLine.line :=
  List.map_congr_left fun l hl => stringOf_line l (hnul l hl)

theorem lines_block (h : rp.arriving = block lines ++ rest) :
    Closed rp.lines ∧ headerLines rp.lines = lines.map fun l => stringOf l.line := by
  induction lines generalizing rp with
  | nil =>
      have harrive : rp.arriving = [13] ++ 10 :: rest := h
      obtain ⟨rp', hlines, -⟩ := lines_arriving harrive (by decide) (by decide)
      rw [hlines]
      exact ⟨.inl (by decide), rfl⟩
  | cons l lines ih =>
      have harrive : rp.arriving = l.text ++ [13] ++ 10 :: (block lines ++ rest) := by
        rw [h]
        simp [block, HeaderLine.line, crlf]
      have hend : l.text ++ [13] ++ [10] = l.line := List.append_assoc _ _ _
      have hlf : 10 ∉ l.text ++ [13] := by
        simpa using l.noLf
      obtain ⟨rp', hlines, hrest⟩ := lines_arriving harrive hlf (hend ▸ l.fits)
      obtain ⟨hclosed, hheader⟩ := ih hrest
      rw [hlines]
      refine ⟨.inr hclosed, ?_⟩
      show (if stringOf (l.text ++ [13] ++ [10]) = crlf then [] else _) = _
      rw [hend, if_neg (stringOf_line_ne l), hheader]
      rfl

/-! ## The request that is built -/

def flagsOf (lines : List HeaderLine) : Headers :=
  noteAll (lines.map fun l => stringOf l.line) { request := [] }

def builtRequest (uri version hostname : CString) (lines : List HeaderLine) : List UInt8 :=
  requestLine uri version ++ (lines.map fun l => stringOf l.line).flatten ++
    defaults (flagsOf lines).sent hostname

theorem changeRequest_block (h : rp.arriving = block lines ++ rest) (buf : Line)
    (request : List UInt8) :
    changeRequest buf rp uri version hostname = .ok (some request) ↔
      HostFits (flagsOf lines) hostname ∧
      (builtRequest uri version hostname lines).length < maxObjectSize ∧
      builtRequest uri version hostname lines = request := by
  obtain ⟨hclosed, hheader⟩ := lines_block h
  have hflags : flags rp.lines = flagsOf lines := by
    rw [flags, hheader, flagsOf]
  rw [changeRequest_eq, ← hflags]
  by_cases hhost : HostFits (flags rp.lines) hostname
  · have hbuilt : requestLine uri version ++ (headerLines rp.lines).flatten ++
        defaults (flags rp.lines).sent hostname = builtRequest uri version hostname lines := by
      rw [hheader, hflags]
      rfl
    rw [changeReads_closed hclosed hhost, hbuilt]
    by_cases hfits : (builtRequest uri version hostname lines).length < maxObjectSize
    · rw [if_pos hfits]
      show Except.ok (some (builtRequest uri version hostname lines)) = _ ↔ _
      rw [Except.ok.injEq, Option.some.injEq]
      exact ⟨fun heq => ⟨hhost, hfits, heq⟩, fun hall => hall.2.2⟩
    · rw [if_neg hfits]
      constructor
      · intro heq
        cases heq
      · exact fun hall => absurd hall.2.1 hfits
  · rw [changeReads_of_long hclosed hhost]
    constructor
    · intro heq
      cases heq
    · exact fun hall => absurd hall.1 hhost

theorem zero_not_mem_unlessSent {text : List UInt8} (s : Bool) (h : 0 ∉ text) :
    0 ∉ unlessSent s text := by
  cases s
  · exact h
  · exact List.not_mem_nil

theorem zero_not_mem_builtRequest (uri version hostname : CString) (lines : List HeaderLine) :
    0 ∉ builtRequest uri version hostname lines := by
  have huri := uri.noNul
  have hversion := version.noNul
  have hget : 0 ∉ chars "GET " := by decide
  have hspace : 0 ∉ chars " " := by decide
  have hcrlf : 0 ∉ crlf := by decide
  have hhost : 0 ∉ hostLine hostname := by
    have hname : 0 ∉ chars "Host: " := by decide
    simp only [hostLine, List.mem_append, hname, hostname.noNul, hcrlf, or_self, not_false_eq_true]
  have hua := zero_not_mem_unlessSent ((flagsOf lines).sent .userAgent)
    (show 0 ∉ userAgentHdr by decide)
  have hc := zero_not_mem_unlessSent ((flagsOf lines).sent .connection)
    (show 0 ∉ connectionHdr by decide)
  have hpc := zero_not_mem_unlessSent ((flagsOf lines).sent .proxyConnection)
    (show 0 ∉ proxyConnectionHdr by decide)
  have hlines : 0 ∉ (lines.map fun l => stringOf l.line).flatten := by
    simp only [List.mem_flatten, List.mem_map, not_exists, not_and]
    rintro _ ⟨l, -, rfl⟩
    exact CString.not_mem_takeWhile l.line
  simp only [builtRequest, requestLine, defaults, List.mem_append, huri, hversion, hget, hspace,
    hcrlf, hlines, zero_not_mem_unlessSent _ hhost, hua, hc, hpc, or_self, not_false_eq_true]

/-- Both requests are the same exactly when no line is cut at a NUL and each
flag tells whether the field was sent. -/
theorem builtRequest_eq_iff (uri version hostname : CString) (lines : List HeaderLine) :
    builtRequest uri version hostname lines = expectedRequest uri version hostname lines ↔
      (∀ l ∈ lines, 0 ∉ l.text) ∧
        ∀ field, (flagsOf lines).sent field = true ↔ Sends lines field := by
  constructor
  · intro heq
    have hnul : ∀ l ∈ lines, 0 ∉ l.text := by
      intro l hl hmem
      apply zero_not_mem_builtRequest uri version hostname lines
      rw [heq, expectedRequest]
      apply List.mem_append_left
      apply List.mem_append_right
      exact List.mem_flatten.mpr ⟨l.line, List.mem_map_of_mem hl, List.mem_append_left _ hmem⟩
    refine ⟨hnul, fun field => ?_⟩
    rw [builtRequest, expectedRequest, map_stringOf hnul] at heq
    rw [defaults_inj (List.append_cancel_left heq), decide_eq_true_iff]
  · rintro ⟨hnul, hflags⟩
    have hsent : (flagsOf lines).sent = fun field => decide (Sends lines field) := by
      funext field
      rw [Bool.eq_iff_iff, hflags, decide_eq_true_iff]
    rw [builtRequest, expectedRequest, map_stringOf hnul, hsent]

/-- The request is the expected one exactly when no line has a NUL and the
search finds the fields that were sent. -/
theorem request_rewritten_iff (buf : Line) (harrive : rp.arriving = block lines ++ rest)
    (hsize : (expectedRequest uri version hostname lines).length < maxObjectSize)
    (hhost : Sends lines .host ∨ (hostLine hostname).length < maxline) :
    changeRequest buf rp uri version hostname =
        .ok (some (expectedRequest uri version hostname lines)) ↔
      (∀ l ∈ lines, 0 ∉ l.text) ∧
        ∀ field, (∃ l ∈ lines, noted l.line = some field) ↔ ∃ l ∈ lines, HasField field l.line := by
  have hnoted (hnul : ∀ l ∈ lines, 0 ∉ l.text) (field : Field) :
      (flagsOf lines).sent field = true ↔ ∃ l ∈ lines, noted l.line = some field := by
    have hnone : Headers.sent { request := [] } field = false := by
      cases field <;> rfl
    rw [flagsOf, sent_noteAll, map_stringOf hnul, hnone]
    simp
  rw [changeRequest_block harrive, builtRequest_eq_iff]
  constructor
  · rintro ⟨-, -, hnul, hflags⟩
    exact ⟨hnul, fun field => (hnoted hnul field).symm.trans (hflags field)⟩
  · rintro ⟨hnul, hfields⟩
    have hflags (field : Field) : (flagsOf lines).sent field = true ↔ Sends lines field :=
      (hnoted hnul field).trans (hfields field)
    have hsame := (builtRequest_eq_iff uri version hostname lines).mpr ⟨hnul, hflags⟩
    exact ⟨hhost.imp_left (hflags .host).mpr, hsame ▸ hsize, hnul, hflags⟩

def headerOf (l : HeaderLine) : Rio := ⟨block [l], []⟩

def hostA : HeaderLine := ⟨chars "Host: a", by decide, by decide, by decide⟩

def lowerHostA : HeaderLine := ⟨chars "host: a", by decide, by decide, by decide⟩

theorem request_rewritten_iff_host :
    changeRequest ⟨List.replicate maxline 0, List.length_replicate⟩ (headerOf hostA)
        ⟨chars "/", by decide⟩ ⟨chars "HTTP/1.0", by decide⟩ ⟨chars "a", by decide⟩ =
      .ok (some (expectedRequest ⟨chars "/", by decide⟩ ⟨chars "HTTP/1.0", by decide⟩
        ⟨chars "a", by decide⟩ [hostA])) ↔
      (∀ l ∈ [hostA], 0 ∉ l.text) ∧ ∀ field,
        (∃ l ∈ [hostA], noted l.line = some field) ↔ ∃ l ∈ [hostA], HasField field l.line :=
  request_rewritten_iff _ (show (headerOf hostA).arriving = block [hostA] ++ [] by decide)
    (by decide +kernel) (.inl (by decide))

/-- The line `host: a` is followed by a second line for the host. -/
theorem lower_host_repeated :
    ¬∀ buf rp lines rest uri version hostname, Rio.arriving rp = block lines ++ rest →
      (expectedRequest uri version hostname lines).length < maxObjectSize →
      (Sends lines .host ∨ (hostLine hostname).length < maxline) →
      changeRequest buf rp uri version hostname =
        .ok (some (expectedRequest uri version hostname lines)) := by
  intro hall
  have harrive : (headerOf lowerHostA).arriving = block [lowerHostA] ++ [] := by decide
  have heq := hall ⟨List.replicate maxline 0, List.length_replicate⟩ (headerOf lowerHostA)
    [lowerHostA] [] ⟨chars "/", by decide⟩ ⟨chars "HTTP/1.0", by decide⟩ ⟨chars "a", by decide⟩
    harrive (by decide +kernel) (.inl (by decide))
  exact absurd ((changeRequest_block harrive _ _).mp heq).2.2 (by decide)

end CsappLabs.Proxy.Request
