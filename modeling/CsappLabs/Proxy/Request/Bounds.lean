import Mathlib.Data.List.Flatten
import CsappLabs.Proxy.Request.Headers

/-!
# Reading the header within bounds

`change_request` appends each line with `strcat` and leaves its loop only at an
empty line or when a read returns 0.  A read that fails returns `-1`, and then
the string that happens to be in the array is appended once more.
-/

namespace CsappLabs.Proxy.Request

open CsappLabs.Foundation Cache

/-- Lines of the header and nothing else come between the request line and the
default lines, and the call returns 0 unless the empty line was reached. -/
structure OnlyRead (reads : List LineRead) (uri version hostname : CString) (res : Nat)
    (request : List UInt8) : Prop where
  appended : ∃ (lines : List (List UInt8)) (tail : List UInt8), lines.Sublist (headerLines reads) ∧
    request = requestLine uri version ++ lines.flatten ++ tail ∧
    if res = 0 then tail = [] else ∃ sent, tail = defaults sent hostname
  zero : ¬Closed reads → res = 0

def Bounded (buf : Line) (reads : List LineRead) (uri version hostname : CString) : Prop :=
  ∃ res request, changeReads buf reads uri version hostname = .ok (res, request) ∧
    OnlyRead reads uri version hostname res request

structure Fits (reads : List LineRead) (uri version hostname : CString) : Prop where
  lines : (requestLine uri version ++ (headerLines reads).flatten).length < maxObjectSize
  host : Closed reads → HostFits (flags reads) hostname
  closing : Closed reads → (requestLine uri version ++ (headerLines reads).flatten ++
    defaults (flags reads).sent hostname).length < maxObjectSize

/-- The empty line comes before any failure, or it never comes and no failure
leaves a string behind. -/
def EndsWell (buf : Line) (reads : List LineRead) : Prop :=
  Closed reads ∨ Quiet (buf.bytes.headD 0) reads ∧ (reads = [] → (buf.str 0).isSome)

variable {buf buf' : Line} {h h' : Headers} {uri version hostname : CString}
  {reads : List LineRead} {data text request : List UInt8} {first : UInt8}

/-! ## Loops that end with a 0 -/

theorem strcat_ok {β : Type} {k : Headers → Except Stop β} {x : β}
    (hok : (orFault (h.strcat text) >>= k) = .ok x) :
    (h.request ++ text).length < maxObjectSize ∧ k (h.append text) = .ok x := by
  rw [orFault_strcat] at hok
  by_cases hfits : (h.request ++ text).length < maxObjectSize
  · rw [if_pos hfits] at hok
    exact ⟨hfits, hok⟩
  · rw [if_neg hfits] at hok
    cases hok

theorem str_ok {β : Type} {k : CString → Except Stop β} {x : β}
    (hok : (orFault (buf.str 0) >>= k) = .ok x) :
    ∃ line, buf.str 0 = some line ∧ k line = .ok x := by
  cases hstr : buf.str 0 with
  | none =>
      rw [hstr] at hok
      cases hok
  | some line =>
      rw [hstr] at hok
      exact ⟨line, rfl, hok⟩

/-- A turn after which the loop goes on, when the read has not failed. -/
theorem headerReads_bytes {hdata : data ≠ [] ∧ data.length ≤ maxline - 1}
    (hok : headerReads (.bytes data hdata :: reads) buf h = .ok (some 0, h')) :
    ∃ buf' : Line, (∀ first, buf'.bytes.head? = some (data.headD first)) ∧
      stringOf data ≠ crlf ∧
      headerReads reads buf' ((h.append (stringOf data)).note (stringOf data)) =
        .ok (some 0, h') := by
  obtain ⟨buf', hhead, -, hline⟩ := headerReads_line hdata reads buf h
  rw [hline] at hok
  by_cases hblank : stringOf data = crlf
  · rw [if_pos hblank] at hok
    exact absurd (Prod.mk.inj (Except.ok.inj hok)).1 (count_ne_zero (.bytes data hdata))
  · rw [if_neg hblank] at hok
    exact ⟨buf', hhead, hblank, (strcat_ok hok).2⟩

/-- A turn after which the loop goes on, when the read has failed. -/
theorem headerReads_failed {hdata : data.length ≤ maxline - 1}
    (hok : headerReads (.reset data hdata :: reads) buf h = .ok (some 0, h')) :
    ∃ (buf' : Line) (line : CString), buf'.bytes = data ++ buf.bytes.drop data.length ∧
      buf'.str 0 = some line ∧
      headerReads reads buf' ((h.append line.bytes).note line.bytes) = .ok (some 0, h') := by
  obtain ⟨buf', hbytes, hline⟩ := headerReads_reset hdata reads buf h
  rw [hline] at hok
  obtain ⟨line, hstr, hok⟩ := str_ok hok
  by_cases hblank : line.bytes = crlf
  · rw [if_pos hblank] at hok
    cases hok
  · rw [if_neg hblank] at hok
    exact ⟨buf', line, hbytes, hstr, (strcat_ok hok).2⟩

theorem length_turn (h : Headers) (line : List UInt8) :
    ((h.append line).note line).request.length = h.request.length + line.length := by
  rw [(OnFlags.note line).request, Headers.append, List.length_append]

theorem length_headerReads (hok : headerReads reads buf h = .ok (some 0, h')) :
    h.request.length + (headerLines reads).flatten.length ≤ h'.request.length := by
  induction reads generalizing buf h with
  | nil =>
      obtain ⟨-, -, hok⟩ := str_ok hok
      obtain ⟨-, rfl⟩ := Prod.mk.inj (Except.ok.inj hok)
      exact Nat.le_refl _
  | cons r reads ih =>
      cases r with
      | bytes data hdata =>
          obtain ⟨buf', -, hne, hrest⟩ := headerReads_bytes hok
          have hlength := ih hrest
          rw [length_turn] at hlength
          rw [headerLines_line hne, List.flatten_cons, List.length_append]
          omega
      | reset data hdata =>
          obtain ⟨buf', line, -, -, hrest⟩ := headerReads_failed hok
          have hlength := ih hrest
          rw [length_turn] at hlength
          show _ + (headerLines reads).flatten.length ≤ _
          omega

theorem head_of_empty {line : CString} (hstr : buf.str 0 = some line) (hnil : line.bytes = []) :
    buf.bytes.head? = some 0 := by
  obtain ⟨rest, hrest⟩ := Buffer.str_zero hstr
  rw [hrest, hnil]
  rfl

theorem quiet_of_length (hok : headerReads reads buf h = .ok (some 0, h'))
    (hfirst : buf.bytes.head? = some first)
    (hlength : h'.request.length ≤ h.request.length + (headerLines reads).flatten.length) :
    Quiet first reads := by
  induction reads generalizing buf h first with
  | nil => exact trivial
  | cons r reads ih =>
      cases r with
      | bytes data hdata =>
          obtain ⟨buf', hhead, hne, hrest⟩ := headerReads_bytes hok
          have hturn := length_turn h (stringOf data)
          rw [headerLines_line hne, List.flatten_cons, List.length_append] at hlength
          exact ⟨hne, ih hrest (hhead first) (by omega)⟩
      | reset data hdata =>
          obtain ⟨buf', line, hbytes, hstr, hrest⟩ := headerReads_failed hok
          have hturn := length_turn h line.bytes
          have hlow := length_headerReads hrest
          have hup : h'.request.length ≤ h.request.length + (headerLines reads).flatten.length :=
            hlength
          have hnil : line.bytes = [] := List.length_eq_zero_iff.mp (by omega)
          have hzero : buf'.bytes.head? = some 0 := head_of_empty hstr hnil
          refine ⟨?_, ih hrest hzero (by omega)⟩
          exact Option.some.inj ((head_append hfirst hbytes).symm.trans hzero)

/-! ## The whole call -/

theorem head_line (buf : Line) : buf.bytes.head? = some (buf.bytes.headD 0) := by
  obtain ⟨bytes, hlen⟩ := buf
  cases bytes with
  | nil => cases hlen
  | cons b bytes => rfl

theorem headerReads_of_zero (hok : changeReads buf reads uri version hostname = .ok (0, request)) :
    ∃ h', headerReads reads buf (Headers.append { request := [] } (requestLine uri version)) =
      .ok (some 0, h') ∧ h'.request = request := by
  have hrest := (strcat_ok hok).2
  generalize Headers.append { request := [] } (requestLine uri version) = h at hrest
  cases hrun : headerReads reads buf h with
  | error e =>
      rw [hrun] at hrest
      cases hrest
  | ok r =>
      obtain ⟨n, h'⟩ := r
      rw [hrun] at hrest
      by_cases hzero : n = some 0
      · subst hzero
        exact ⟨h', rfl, (Prod.mk.inj (Except.ok.inj hrest)).2⟩
      · have hclose : (h'.close hostname >>= fun h => .ok (1, h.request)) = .ok (0, request) := by
          rw [← hrest]
          exact (if_neg hzero).symm
        cases hend : h'.close hostname with
        | error e =>
            rw [hend] at hclose
            cases hclose
        | ok h'' =>
            rw [hend] at hclose
            cases hclose

theorem endsWell_of_bounded (hbounded : Bounded buf reads uri version hostname) :
    EndsWell buf reads := by
  obtain ⟨res, request, hok, ⟨lines, tail, hsub, hrequest, htail⟩, hzero⟩ := hbounded
  by_cases hclosed : Closed reads
  · exact .inl hclosed
  · obtain rfl := hzero hclosed
    obtain rfl : tail = [] := htail
    obtain ⟨h', hrun, hrequest'⟩ := headerReads_of_zero hok
    have hlength : lines.flatten.length ≤ (headerLines reads).flatten.length :=
      hsub.flatten.length_le
    refine .inr ⟨quiet_of_length hrun (head_line buf) ?_, ?_⟩
    · rw [hrequest', hrequest, List.append_nil, List.length_append]
      show _ ≤ (requestLine uri version).length + _
      omega
    · rintro rfl
      obtain ⟨line, hstr, -⟩ := str_ok hrun
      rw [hstr]
      rfl

theorem fits_of_bounded (hbounded : Bounded buf reads uri version hostname) :
    Fits reads uri version hostname := by
  have hends := endsWell_of_bounded hbounded
  obtain ⟨res, request, hok, -⟩ := hbounded
  by_cases hclosed : Closed reads
  · by_cases hhost : HostFits (flags reads) hostname
    · rw [changeReads_closed hclosed hhost] at hok
      by_cases hfits : (requestLine uri version ++ (headerLines reads).flatten ++
          defaults (flags reads).sent hostname).length < maxObjectSize
      · refine ⟨?_, fun _ => hhost, fun _ => hfits⟩
        rw [List.length_append] at hfits
        omega
      · rw [if_neg hfits] at hok
        cases hok
    · rw [changeReads_of_long hclosed hhost] at hok
      cases hok
  · obtain ⟨hquiet, hstr⟩ := hends.resolve_left hclosed
    rw [changeReads_quiet hquiet (head_line buf) hstr] at hok
    by_cases hfits : (requestLine uri version ++ (headerLines reads).flatten).length < maxObjectSize
    · exact ⟨hfits, fun hc => absurd hc hclosed, fun hc => absurd hc hclosed⟩
    · rw [if_neg hfits] at hok
      cases hok

theorem bounded_of_fits (hends : EndsWell buf reads) (hfits : Fits reads uri version hostname) :
    Bounded buf reads uri version hostname := by
  by_cases hclosed : Closed reads
  · refine ⟨1, requestLine uri version ++ (headerLines reads).flatten ++
      defaults (flags reads).sent hostname, ?_, ⟨headerLines reads,
      defaults (flags reads).sent hostname, List.Sublist.refl _, rfl, ?_⟩,
      fun hc => absurd hclosed hc⟩
    · rw [changeReads_closed hclosed (hfits.host hclosed), if_pos (hfits.closing hclosed)]
    · exact ⟨(flags reads).sent, rfl⟩
  · obtain ⟨hquiet, hstr⟩ := hends.resolve_left hclosed
    refine ⟨0, requestLine uri version ++ (headerLines reads).flatten, ?_,
      ⟨headerLines reads, [], List.Sublist.refl _, (List.append_nil _).symm, rfl⟩, fun _ => rfl⟩
    rw [changeReads_quiet hquiet (head_line buf) hstr, if_pos hfits.lines]

/-- Exactly then the call stays in its arrays and appends what was read. -/
theorem bounded_iff (buf : Line) (reads : List LineRead) (uri version hostname : CString) :
    Bounded buf reads uri version hostname ↔
      EndsWell buf reads ∧ Fits reads uri version hostname :=
  ⟨fun h => ⟨endsWell_of_bounded h, fits_of_bounded h⟩, fun h => bounded_of_fits h.1 h.2⟩

/-- The connection is reset after the line `A: b`, and then the empty line
comes. -/
theorem line_appended_twice :
    ¬∀ buf rp uri version hostname, CString.strlen hostname < maxline →
      Bounded buf (Rio.lines rp) uri version hostname := by
  intro hall
  have hbounded := hall ⟨List.replicate maxline 0, List.length_replicate⟩
    ⟨[], [.bytes 65 (chars ": b" ++ crlf), .reset, .bytes 13 [10]]⟩ ⟨chars "/", by decide⟩
    ⟨chars "HTTP/1.0", by decide⟩ ⟨chars "h", by decide⟩ (by decide)
  cases endsWell_of_bounded hbounded with
  | inl hclosed => exact absurd hclosed (by decide)
  | inr hquiet => exact absurd hquiet.1 (by decide)

end CsappLabs.Proxy.Request
