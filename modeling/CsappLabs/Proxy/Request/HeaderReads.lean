import CsappLabs.Proxy.Reads
import CsappLabs.Proxy.Request.Model

/-!
# The client's header as results of reads

`change_request` depends on the connection only through what its calls of
`Rio_readlineb` return.  On these results its loop is a recursion, and the
lines that it appends and the flags that it sets are functions of the lines
before the empty one.
-/

namespace CsappLabs.Proxy.Request

open CsappLabs.Foundation Cache

/-- The loop of `change_request` with the read in front of each turn. -/
def headerReads : List LineRead → Line → Headers → Except Stop (Option Nat × Headers)
  | [], buf, h => do
      let _ ← orFault (buf.str 0)
      .ok (some 0, h)
  | r :: rs, buf, h => do
      let buf ← orFault (buf.store r.stored)
      let line ← orFault (buf.str 0)
      if line.bytes = crlf then .ok (r.count, h)
      else
        let h ← orFault (h.strcat line.bytes)
        headerReads rs buf (h.note line.bytes)

def requestLine (uri version : CString) : List UInt8 :=
  chars "GET " ++ uri.bytes ++ chars " " ++ version.bytes ++ crlf

def hostLine (hostname : CString) : List UInt8 := chars "Host: " ++ hostname.bytes ++ crlf

def connectionHdr : List UInt8 := chars "Connection: close" ++ crlf

def proxyConnectionHdr : List UInt8 := chars "Proxy-Connection: close" ++ crlf

def Headers.close (h : Headers) (hostname : CString) : Except Stop Headers := do
  let h ← h.addHost hostname
  let h ← h.addDefault h.hasUserAgent userAgentHdr
  let h ← h.addDefault h.hasConnection connectionHdr
  let h ← h.addDefault h.hasProxyConnection proxyConnectionHdr
  orFault (h.strcat crlf)

def changeReads (buf : Line) (reads : List LineRead) (uri version hostname : CString) :
    Except Stop (Nat × List UInt8) := do
  let h ← orFault (Headers.strcat { request := [] } (requestLine uri version))
  let (n, h) ← headerReads reads buf h
  if n = some 0 then .ok (0, h.request)
  else
    let h ← h.close hostname
    .ok (1, h.request)

variable {buf buf' : Line} {rp : Rio} {h h' : Headers} {uri version hostname : CString}
  {reads : List LineRead} {data text : List UInt8} {fuel : Nat} {n : Option Nat}

/-! ## The model of `change_request` -/

theorem store_nil (buf : Line) : buf.store [] = some buf := by
  have hfits : ([] : List UInt8).length ≤ maxline := Nat.zero_le _
  obtain ⟨buf', hstore, hbytes⟩ := buf.store_eq hfits
  rw [hstore]
  obtain ⟨bytes, hlen⟩ := buf'
  obtain rfl : bytes = buf.bytes := hbytes
  rfl

theorem count_ne_zero (r : LineRead) : r.count ≠ some 0 := by
  cases r with
  | bytes data hdata =>
      intro hzero
      exact hdata.1 (List.length_eq_zero_iff.mp (Option.some.inj hzero))
  | reset data hdata => nofun

theorem headerLoop_eq (hfuel : rp.pending + 2 ≤ fuel) :
    (do
      let (stored, n, rp) := rioReadlineb rp maxline
      let buf ← orFault (buf.store stored)
      headerLoop fuel rp buf n h) = headerReads rp.lines buf h := by
  induction fuel generalizing rp buf h with
  | zero => cases hfuel
  | succ fuel ih =>
      cases hnext : nextLine rp with
      | none =>
          obtain ⟨rp', hread⟩ := rioReadlineb_of_none hnext
          simp only [hread, store_nil, lines_of_none hnext, headerReads, headerLoop, or_true,
            if_true]
          rfl
      | some p =>
          obtain ⟨r, rp'⟩ := p
          have hless := nextLine_pending rp r rp' hnext
          simp only [rioReadlineb_of_some hnext, lines_of_some hnext, headerReads, headerLoop,
            count_ne_zero r, or_false]
          congr 1
          funext buf'
          congr 1
          funext line
          split
          · rfl
          · congr 1
            funext h'
            exact ih (by omega)

theorem map_bind {α β γ : Type} (x : Except Stop α) (k : α → Except Stop β) (f : β → γ) :
    (x >>= k).map f = x >>= fun a => (k a).map f := by
  cases x <;> rfl

theorem bind_map {α β γ : Type} (x : Except Stop α) (f : α → β) (k : β → Except Stop γ) :
    (x.map f >>= k) = x >>= fun a => k (f a) := by
  cases x <;> rfl

theorem changeRequest_eq (buf : Line) (rp : Rio) (uri version hostname : CString) :
    changeRequest buf rp uri version hostname =
      (changeReads buf rp.lines uri version hostname).map fun r =>
        if r.1 = 0 then none else some r.2 := by
  have hread (h : Headers) : headerReads rp.lines buf h = _ :=
    (headerLoop_eq (Nat.le_refl (rp.pending + 2))).symm
  unfold changeRequest changeReads
  simp only [hread, Headers.close, map_bind, bind_assoc]
  congr 1
  funext h
  obtain ⟨stored, n, rp'⟩ := rioReadlineb rp maxline
  dsimp only
  congr 1
  funext buf'
  congr 1
  funext r
  by_cases hzero : r.1 = some 0
  · simp only [hzero, if_true]
    rfl
  · simp only [hzero, if_false, map_bind]
    rfl

/-! ## Appending -/

def Headers.append (h : Headers) (text : List UInt8) : Headers :=
  { h with request := h.request ++ text }

structure OnFlags (F : Headers → Headers) : Prop where
  append : ∀ h text, F (h.append text) = (F h).append text
  request : ∀ h, (F h).request = h.request

theorem OnFlags.id : OnFlags fun h => h := ⟨fun _ _ => rfl, fun _ => rfl⟩

theorem orFault_strcat (h : Headers) (text : List UInt8) :
    orFault (h.strcat text) =
      if (h.request ++ text).length < maxObjectSize then .ok (h.append text)
      else .error .fault := by
  unfold Headers.strcat
  split <;> rfl

theorem append_append (h : Headers) (s t : List UInt8) :
    (h.append s).append t = h.append (s ++ t) := by
  simp only [Headers.append, List.append_assoc]

theorem strcat_bind {F : Headers → Headers} (hF : OnFlags F) (h : Headers) (s t : List UInt8) :
    (orFault (h.strcat s) >>= fun h => orFault ((F h).strcat t)) =
      orFault ((F h).strcat (s ++ t)) := by
  rw [orFault_strcat]
  by_cases hfits : (h.request ++ s).length < maxObjectSize
  · rw [if_pos hfits]
    show orFault ((F (h.append s)).strcat t) = _
    rw [hF.append, orFault_strcat, orFault_strcat, append_append, ← List.append_assoc]
    rfl
  · have hboth : ¬((F h).request ++ (s ++ t)).length < maxObjectSize := by
      rw [hF.request, ← List.append_assoc, List.length_append]
      omega
    rw [if_neg hfits, orFault_strcat, if_neg hboth]
    rfl

def unlessSent (sent : Bool) (text : List UInt8) : List UInt8 := if sent then [] else text

inductive Field where
  | host
  | userAgent
  | connection
  | proxyConnection
  deriving DecidableEq

def Headers.sent (h : Headers) : Field → Bool
  | .host => h.hasHost
  | .userAgent => h.hasUserAgent
  | .connection => h.hasConnection
  | .proxyConnection => h.hasProxyConnection

def defaults (sent : Field → Bool) (hostname : CString) : List UInt8 :=
  unlessSent (sent .host) (hostLine hostname) ++ (unlessSent (sent .userAgent) userAgentHdr ++
    (unlessSent (sent .connection) connectionHdr ++
      (unlessSent (sent .proxyConnection) proxyConnectionHdr ++ crlf)))

/-- The line for the host is not formatted, or it fits in its array. -/
def HostFits (h : Headers) (hostname : CString) : Prop :=
  h.hasHost ∨ (hostLine hostname).length < maxline

theorem addDefault_bind {sent : Bool} {k : Headers → Except Stop Headers} {rest : List UInt8}
    (hroom : h.request.length < maxObjectSize)
    (hk : (h.append (unlessSent sent text)).request.length < maxObjectSize →
      k (h.append (unlessSent sent text)) =
        orFault ((h.append (unlessSent sent text)).strcat rest)) :
    (h.addDefault sent text >>= k) = orFault (h.strcat (unlessSent sent text ++ rest)) := by
  have hdefault : h.addDefault sent text = orFault (h.strcat (unlessSent sent text)) := by
    cases sent with
    | false => rfl
    | true =>
        have hnil : h.append [] = h := by
          rw [Headers.append, List.append_nil]
        rw [unlessSent, if_pos rfl, orFault_strcat, List.append_nil, if_pos hroom, hnil]
        rfl
  rw [hdefault, ← strcat_bind OnFlags.id h, orFault_strcat]
  by_cases hfits : (h.request ++ unlessSent sent text).length < maxObjectSize
  · rw [if_pos hfits]
    exact hk hfits
  · rw [if_neg hfits]
    rfl

theorem close_eq (hroom : h.request.length < maxObjectSize) (hhost : HostFits h hostname) :
    h.close hostname = orFault (h.strcat (defaults h.sent hostname)) := by
  have haddHost : h.addHost hostname = h.addDefault h.hasHost (hostLine hostname) := if_pos hhost
  rw [Headers.close, haddHost]
  apply addDefault_bind hroom
  intro hroom
  apply addDefault_bind hroom
  intro hroom
  apply addDefault_bind hroom
  intro hroom
  exact addDefault_bind hroom fun _ => rfl

theorem close_of_long (hhost : ¬HostFits h hostname) : h.close hostname = .error .fault := by
  have haddHost : h.addHost hostname = .error .fault := if_neg hhost
  rw [Headers.close, haddHost]
  rfl

/-! ## The lines of the header -/

def stringOf (data : List UInt8) : List UInt8 := data.takeWhile (· ≠ 0)

def headerLines : List LineRead → List (List UInt8)
  | [] => []
  | .bytes data _ :: reads =>
      if stringOf data = crlf then [] else stringOf data :: headerLines reads
  | .reset _ _ :: reads => headerLines reads

theorem headerLines_line {hdata : data ≠ [] ∧ data.length ≤ maxline - 1}
    (hne : stringOf data ≠ crlf) :
    headerLines (.bytes data hdata :: reads) = stringOf data :: headerLines reads := if_neg hne

/-- The empty line comes, and no read fails before it. -/
def Closed : List LineRead → Prop
  | [] => False
  | .bytes data _ :: reads => stringOf data = crlf ∨ Closed reads
  | .reset _ _ :: _ => False

/-- The empty line does not come, and every read that fails leaves the empty
string in the array, which starts with `first` before. -/
def Quiet : UInt8 → List LineRead → Prop
  | _, [] => True
  | first, .bytes data _ :: reads => stringOf data ≠ crlf ∧ Quiet (data.headD first) reads
  | first, .reset data _ :: reads => data.headD first = 0 ∧ Quiet 0 reads

instance decidableClosed : (reads : List LineRead) → Decidable (Closed reads)
  | [] => isFalse id
  | .bytes _ _ :: reads => @instDecidableOr _ _ _ (decidableClosed reads)
  | .reset _ _ :: _ => isFalse id

instance decidableQuiet : (first : UInt8) → (reads : List LineRead) → Decidable (Quiet first reads)
  | _, [] => isTrue trivial
  | first, .bytes data _ :: reads =>
      @instDecidableAnd _ _ _ (decidableQuiet (data.headD first) reads)
  | _, .reset _ _ :: reads => @instDecidableAnd _ _ _ (decidableQuiet 0 reads)

def noteAll (lines : List (List UInt8)) (h : Headers) : Headers := lines.foldl Headers.note h

theorem OnFlags.note (line : List UInt8) : OnFlags fun h => h.note line := by
  constructor <;>
  · intros
    simp only [Headers.note]
    repeat' split
    all_goals rfl

theorem OnFlags.noteAll (lines : List (List UInt8)) : OnFlags (noteAll lines) := by
  induction lines with
  | nil => exact OnFlags.id
  | cons line lines ih =>
      have hnote := OnFlags.note line
      constructor
      · intro h text
        show Request.noteAll lines ((h.append text).note line) = _
        rw [hnote.append, ih.append]
        rfl
      · intro h
        show (Request.noteAll lines (h.note line)).request = _
        rw [ih.request, hnote.request]

theorem store_line (hdata : data ≠ [] ∧ data.length ≤ maxline - 1) (buf : Line) :
    ∃ (buf' : Line) (line : CString), buf.store (data ++ [0]) = some buf' ∧
      buf'.str 0 = some line ∧ line.bytes = stringOf data ∧
      ∀ first, buf'.bytes.head? = some (data.headD first) := by
  have hfits : (data ++ [0]).length ≤ maxline := by
    have hmax : 0 < maxline := by decide
    rw [List.length_append, List.length_singleton]
    omega
  obtain ⟨buf', hstore, hbytes⟩ := buf.store_eq hfits
  have hmem : 0 ∈ buf'.bytes := by
    simp [hbytes]
  refine ⟨buf', ⟨buf'.bytes.takeWhile (· ≠ 0), CString.not_mem_takeWhile _⟩, hstore, ?_, ?_,
    fun first => ?_⟩
  · rw [Buffer.str, List.drop_zero, CString.ofBuffer_of_mem hmem]
  · show buf'.bytes.takeWhile (· ≠ 0) = stringOf data
    rw [hbytes, List.append_assoc, List.singleton_append, CString.takeWhile_append_nul, stringOf]
  · obtain ⟨b, data, rfl⟩ := List.exists_cons_of_ne_nil hdata.1
    rw [hbytes]
    rfl

theorem headerReads_line (hdata : data ≠ [] ∧ data.length ≤ maxline - 1) (reads : List LineRead)
    (buf : Line) (h : Headers) :
    ∃ buf' : Line, (∀ first, buf'.bytes.head? = some (data.headD first)) ∧ (buf'.str 0).isSome ∧
      headerReads (.bytes data hdata :: reads) buf h =
        if stringOf data = crlf then .ok (some data.length, h)
        else orFault (h.strcat (stringOf data)) >>= fun h =>
          headerReads reads buf' (h.note (stringOf data)) := by
  obtain ⟨buf', line, hstore, hstr, hline, hhead⟩ := store_line hdata buf
  refine ⟨buf', hhead, by rw [hstr]; rfl, ?_⟩
  simp only [headerReads, ReadResult.stored, hstore, ReadResult.count, ← hline]
  show (orFault (buf'.str 0) >>= _) = _
  rw [hstr]
  rfl

theorem headerReads_reset (hdata : data.length ≤ maxline - 1) (reads : List LineRead)
    (buf : Line) (h : Headers) :
    ∃ buf' : Line, buf'.bytes = data ++ buf.bytes.drop data.length ∧
      headerReads (.reset data hdata :: reads) buf h =
        orFault (buf'.str 0) >>= fun line =>
          if line.bytes = crlf then .ok (none, h)
          else orFault (h.strcat line.bytes) >>= fun h =>
            headerReads reads buf' (h.note line.bytes) := by
  obtain ⟨buf', hstore, hbytes⟩ := buf.store_eq (Nat.le_trans hdata (Nat.sub_le _ _))
  refine ⟨buf', hbytes, ?_⟩
  simp only [headerReads, ReadResult.stored, hstore, ReadResult.count]
  rfl

theorem line_bind {β : Type} {k : Headers → Except Stop β} {f : Headers → β}
    {line : List UInt8} {lines : List (List UInt8)}
    (hk : (h.request ++ line).length < maxObjectSize → k ((h.append line).note line) =
      (orFault ((noteAll lines ((h.append line).note line)).strcat lines.flatten)).map f) :
    (orFault (h.strcat line) >>= fun h => k (h.note line)) =
      (orFault ((noteAll (line :: lines) h).strcat (line :: lines).flatten)).map f := by
  rw [List.flatten_cons, ← strcat_bind (OnFlags.noteAll (line :: lines)), orFault_strcat]
  by_cases hfits : (h.request ++ line).length < maxObjectSize
  · rw [if_pos hfits]
    exact hk hfits
  · rw [if_neg hfits]
    rfl

theorem room_note {line : List UInt8} (hfits : (h.request ++ line).length < maxObjectSize) :
    ((h.append line).note line).request.length < maxObjectSize := by
  rwa [(OnFlags.note line).request]

theorem strcat_nil (hroom : h.request.length < maxObjectSize) : orFault (h.strcat []) = .ok h := by
  rw [orFault_strcat, List.append_nil, if_pos hroom, Headers.append, List.append_nil]

theorem headerReads_closed (hclosed : Closed reads) :
    ∃ k, k ≠ 0 ∧ ∀ (buf : Line) (h : Headers), h.request.length < maxObjectSize →
      headerReads reads buf h =
        (orFault ((noteAll (headerLines reads) h).strcat (headerLines reads).flatten)).map
          fun h => (some k, h) := by
  induction reads with
  | nil => exact absurd hclosed id
  | cons r reads ih =>
      cases r with
      | reset data hdata => exact absurd hclosed id
      | bytes data hdata =>
          by_cases hblank : stringOf data = crlf
          · have hlines : headerLines (.bytes data hdata :: reads) = [] := if_pos hblank
            refine ⟨data.length, (List.length_pos_of_ne_nil hdata.1).ne', fun buf h hroom => ?_⟩
            obtain ⟨buf', -, -, hline⟩ := headerReads_line hdata reads buf h
            rw [hline, if_pos hblank, hlines]
            show _ = (orFault (h.strcat [])).map _
            rw [strcat_nil hroom]
            rfl
          · obtain ⟨k, hk, hrest⟩ := ih (hclosed.resolve_left hblank)
            refine ⟨k, hk, fun buf h _ => ?_⟩
            obtain ⟨buf', -, -, hline⟩ := headerReads_line hdata reads buf h
            rw [hline, if_neg hblank, headerLines_line hblank]
            exact line_bind fun hfits => hrest buf' _ (room_note hfits)

theorem str_of_head_zero (hhead : buf.bytes.head? = some 0) :
    ∃ line, buf.str 0 = some line ∧ line.bytes = [] := by
  obtain ⟨rest, hrest⟩ := List.head?_eq_some_iff.mp hhead
  have hmem : 0 ∈ buf.bytes := by
    rw [hrest]
    exact List.mem_cons_self
  refine ⟨_, by rw [Buffer.str, List.drop_zero, CString.ofBuffer_of_mem hmem], ?_⟩
  simp [hrest]

theorem head_append {first : UInt8} (hfirst : buf.bytes.head? = some first)
    (hbytes : buf'.bytes = data ++ buf.bytes.drop data.length) :
    buf'.bytes.head? = some (data.headD first) := by
  cases data with
  | nil =>
      rw [hbytes]
      exact hfirst
  | cons b data =>
      rw [hbytes]
      rfl

theorem headerReads_quiet {first : UInt8} (hquiet : Quiet first reads)
    (hfirst : buf.bytes.head? = some first) (hstr : reads = [] → (buf.str 0).isSome)
    (hroom : h.request.length < maxObjectSize) :
    headerReads reads buf h =
      (orFault ((noteAll (headerLines reads) h).strcat (headerLines reads).flatten)).map
        fun h => (some 0, h) := by
  induction reads generalizing buf h first with
  | nil =>
      obtain ⟨line, hline⟩ := Option.isSome_iff_exists.mp (hstr rfl)
      show (orFault (buf.str 0) >>= _) = (orFault (h.strcat [])).map _
      rw [hline, strcat_nil hroom]
      rfl
  | cons r reads ih =>
      cases r with
      | bytes data hdata =>
          obtain ⟨hne, hquiet⟩ := hquiet
          obtain ⟨buf', hhead, hstr', hline⟩ := headerReads_line hdata reads buf h
          rw [hline, if_neg hne, headerLines_line hne]
          exact line_bind fun hfits => ih hquiet (hhead first) (fun _ => hstr') (room_note hfits)
      | reset data hdata =>
          obtain ⟨hzero, hquiet⟩ := hquiet
          obtain ⟨buf', hbytes, hline⟩ := headerReads_reset hdata reads buf h
          have hhead : buf'.bytes.head? = some 0 := hzero ▸ head_append hfirst hbytes
          obtain ⟨line, hstr', hnil⟩ := str_of_head_zero hhead
          rw [hline, hstr']
          show (if line.bytes = crlf then _ else _) = _
          rw [hnil, if_neg (by decide), strcat_nil hroom]
          exact ih hquiet hhead (fun _ => by rw [hstr']; rfl) hroom

/-! ## The whole call -/

def flags (reads : List LineRead) : Headers := noteAll (headerLines reads) { request := [] }

theorem changeReads_lines {k : Option Nat}
    (hrun : ∀ h : Headers, h.request.length < maxObjectSize → headerReads reads buf h =
      (orFault ((noteAll (headerLines reads) h).strcat (headerLines reads).flatten)).map
        fun h => (k, h)) :
    changeReads buf reads uri version hostname =
      orFault ((flags reads).strcat (requestLine uri version ++ (headerLines reads).flatten)) >>=
        fun h => if k = some 0 then .ok (0, h.request)
          else h.close hostname >>= fun h => .ok (1, h.request) := by
  have hF := OnFlags.noteAll (headerLines reads)
  rw [changeReads, flags, ← strcat_bind hF, bind_assoc, orFault_strcat]
  split
  · rename_i hroom
    show (headerReads reads buf _ >>= _) = _
    rw [hrun _ hroom, bind_map]
    rfl
  · rfl

theorem flags_request (reads : List LineRead) : (flags reads).request = [] :=
  (OnFlags.noteAll _).request _

theorem map_strcat (reads : List LineRead) (text : List UInt8) (res : Nat) :
    ((orFault ((flags reads).strcat text)).map fun h => (res, h.request)) =
      if text.length < maxObjectSize then .ok (res, text) else .error .fault := by
  rw [orFault_strcat, flags_request, List.nil_append]
  split
  · show Except.ok (res, (flags reads).request ++ text) = _
    rw [flags_request, List.nil_append]
  · rfl

theorem changeReads_quiet {first : UInt8} (hquiet : Quiet first reads)
    (hfirst : buf.bytes.head? = some first) (hstr : reads = [] → (buf.str 0).isSome) :
    changeReads buf reads uri version hostname =
      if (requestLine uri version ++ (headerLines reads).flatten).length < maxObjectSize then
        .ok (0, requestLine uri version ++ (headerLines reads).flatten)
      else .error .fault := by
  rw [changeReads_lines fun h hroom => headerReads_quiet hquiet hfirst hstr hroom,
    ← map_strcat reads]
  cases orFault ((flags reads).strcat _) <;> rfl

theorem changeReads_closed (hclosed : Closed reads) (hhost : HostFits (flags reads) hostname)
    (buf : Line) :
    changeReads buf reads uri version hostname =
      if (requestLine uri version ++ (headerLines reads).flatten ++
        defaults (flags reads).sent hostname).length < maxObjectSize then
        .ok (1, requestLine uri version ++ (headerLines reads).flatten ++
          defaults (flags reads).sent hostname)
      else .error .fault := by
  obtain ⟨k, hk, hrun⟩ := headerReads_closed hclosed
  rw [changeReads_lines (hrun buf), ← map_strcat reads]
  simp only [if_neg (mt Option.some.inj hk)]
  generalize requestLine uri version ++ (headerLines reads).flatten = sent
  rw [← strcat_bind OnFlags.id (flags reads) sent (defaults (flags reads).sent hostname),
    orFault_strcat (flags reads) sent]
  by_cases hroom : ((flags reads).request ++ sent).length < maxObjectSize
  · have hclose : ((flags reads).append sent).close hostname =
        orFault (((flags reads).append sent).strcat (defaults (flags reads).sent hostname)) :=
      close_eq hroom hhost
    rw [if_pos hroom]
    show (((flags reads).append sent).close hostname >>= _) = _
    rw [hclose]
    generalize defaults (flags reads).sent hostname = rest
    show _ = (orFault (((flags reads).append sent).strcat rest)).map _
    cases orFault (((flags reads).append sent).strcat rest) <;> rfl
  · rw [if_neg hroom]
    rfl

theorem changeReads_of_long (hclosed : Closed reads) (hhost : ¬HostFits (flags reads) hostname)
    (buf : Line) : changeReads buf reads uri version hostname = .error .fault := by
  obtain ⟨k, hk, hrun⟩ := headerReads_closed hclosed
  rw [changeReads_lines (hrun buf)]
  simp only [if_neg (mt Option.some.inj hk)]
  generalize requestLine uri version ++ (headerLines reads).flatten = sent
  have hclose : ((flags reads).append sent).close hostname = .error .fault := close_of_long hhost
  rw [orFault_strcat]
  split
  · show (((flags reads).append sent).close hostname >>= _) = _
    rw [hclose]
    rfl
  · rfl

end CsappLabs.Proxy.Request
