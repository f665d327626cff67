import CsappLabs.Proxy.Relay

/-!
# One request

`process_request` of `proxy.c` and the functions that it calls.  The arrays on
its stack start with whatever the frame holds, `sscanf` and `strncpy` need not
fill or terminate them, and reading a string without a terminator or storing
past the end of an array is a fault.  What the client and the origin server are
sent is recorded as a list of events, also when the call does not return.
-/

namespace CsappLabs.Proxy.Request

open CsappLabs.Foundation Cache

abbrev Line := Buffer maxline

inductive Event where
  | errorPage (writes : List (List UInt8))
  | cached (bytes : List UInt8)
  | connect (host port : CString)
  | request (bytes : List UInt8)
  | relayed (writes : List (List UInt8))
  deriving DecidableEq

/-- Why the call does not return; `exit` is that of `unix_error`. -/
inductive Halt where
  | stop (why : Stop)
  | exit
  deriving DecidableEq

structure Outcome (α : Type) where
  events : List Event
  result : Except Halt α

def orFault {α : Type} : Option α → Except Stop α
  | none => .error .fault
  | some a => .ok a

/-- The arrays of `process_request`, with `buf` of `change_request` as
`headerBuf`, before anything is stored in them, and the memory behind
`responseBuf`. -/
structure Frame where
  buf : Line
  method : Line
  url : Line
  uri : Line
  version : Line
  hostname : Line
  port : Line
  headerBuf : Line
  responseBuf : Line
  behind : List UInt8

/-! ## The error page -/

def crlf : List UInt8 := [13, 10]

def errorPage (cause errnum shortmsg longmsg : List UInt8) : List (List UInt8) :=
  [chars "HTTP/1.0 " ++ errnum ++ chars " " ++ shortmsg ++ crlf,
    chars "Content-type: text/html" ++ crlf ++ crlf,
    chars "<html><title>Tiny Error</title>" ++ crlf,
    chars "<body bgcolor=ffffff>" ++ crlf,
    errnum ++ chars " " ++ shortmsg ++ crlf,
    chars "<p>" ++ longmsg ++ chars ": " ++ cause ++ chars "</p>" ++ crlf,
    chars "<hr><em>The Tiny Web server</em>" ++ crlf,
    chars "</body></html>" ++ crlf]

/-- Each text is formatted in an array of `MAXLINE` characters, then written. -/
def writeAll : List (List UInt8) → List (List UInt8) × Except Stop Unit
  | [] => ([], .ok ())
  | text :: texts =>
      if text.length < maxline then
        let (writes, r) := writeAll texts
        (text :: writes, r)
      else ([], .error .fault)

def replyClientError (cause : Line) (errnum shortmsg longmsg : List UInt8) :
    List (List UInt8) × Except Stop Unit :=
  match cause.str 0 with
  | some c => writeAll (errorPage c.bytes errnum shortmsg longmsg)
  -- the first five texts do not depend on the cause
  | none => ((errorPage [] errnum shortmsg longmsg).take 5, .error .fault)

/-! ## The request line -/

structure RequestLine where
  method : Line
  url : Line
  version : Line

inductive First where
  | ended
  | blank
  | line (r : RequestLine) (rp : Rio)

def storeWord (buf : Line) (word : List UInt8) : Option Line :=
  if word = [] then some buf else buf.store (word ++ [0])

/-- `sscanf(text, "%s %s %s", method, url, version)` -/
def scanWords (method url version : Line) (text : List UInt8) : Option RequestLine := do
  let (w₁, text) := scanWord text
  let method ← storeWord method w₁
  let (w₂, text) := scanWord text
  let url ← storeWord url w₂
  let (w₃, _) := scanWord text
  let version ← storeWord version w₃
  some ⟨method, url, version⟩

def scanRequest (f : Frame) (text : List UInt8) : Option RequestLine :=
  scanWords f.method f.url f.version text

/-- `process_request` up to `sscanf`. -/
def readRequest (f : Frame) (client : List Delivery) : Except Stop First := do
  let (stored, n, rp) := rioReadlineb (rioReadinitb client) maxline
  if n = some 0 then .ok .ended
  else
    let buf ← orFault (f.buf.store stored)
    let text ← orFault (buf.str 0)
    if text.bytes = crlf then .ok .blank
    else
      let r ← orFault (scanRequest f text.bytes)
      .ok (.line r rp)

def currentVersion : List UInt8 := chars "HTTP/1.0"

def wrongVersion (v : CString) : Bool :=
  ¬sameLetters v.bytes currentVersion ∧ (v.strlen < 8 ∨ v.bytes.take 4 ≠ chars "HTTP")

def modifiedVersion (version : Line) (v : CString) : Option Line :=
  if sameLetters v.bytes currentVersion then some version
  else do
    let version ← version.store (List.replicate v.strlen 0)
    version.store currentVersion

/-! ## The URL and the header -/

structure Target where
  uri : Line
  hostname : Line
  port : Line

/-- `parse_uri`.  A pointer difference that is negative, or that involves a
null pointer, asks `strncpy` for more bytes than the array has. -/
def parseUri (f : Frame) (url : Line) : Option Target := do
  let noPrefix ← url.str (chars "http://").length
  let colon ← strstr (chars ":") noPrefix.bytes
  let slash ← strstr (chars "/") noPrefix.bytes
  if slash < colon + 1 then none
  else
    let uri ← f.uri.store (noPrefix.bytes.drop slash ++ [0])
    let hostname ← f.hostname.store (noPrefix.bytes.take colon)
    let port ← f.port.store ((noPrefix.bytes.drop (colon + 1)).take (slash - colon - 1))
    some ⟨uri, hostname, port⟩

structure Headers where
  request : List UInt8
  hasUserAgent : Bool := false
  hasConnection : Bool := false
  hasProxyConnection : Bool := false
  hasHost : Bool := false

def Headers.strcat (h : Headers) (text : List UInt8) : Option Headers :=
  if (h.request ++ text).length < maxObjectSize then some { h with request := h.request ++ text }
  else none

def Headers.addDefault (h : Headers) (sent : Bool) (text : List UInt8) : Except Stop Headers :=
  if sent then .ok h else orFault (h.strcat text)

/-- The line for the host is formatted in `buf` first. -/
def Headers.addHost (h : Headers) (hostname : CString) : Except Stop Headers :=
  let text := chars "Host: " ++ hostname.bytes ++ crlf
  if h.hasHost ∨ text.length < maxline then h.addDefault h.hasHost text else .error .fault

def contains (line : List UInt8) (name : String) : Bool := (strstr (chars name) line).isSome

def Headers.note (h : Headers) (line : List UInt8) : Headers :=
  if contains line "User-Agent:" then { h with hasUserAgent := true }
  else if contains line "Proxy-Connection:" then { h with hasProxyConnection := true }
  else if contains line "Connection:" then { h with hasConnection := true }
  else if contains line "Host:" then { h with hasHost := true }
  else h

/-- The loop of `change_request`.  Each turn takes a byte or an error from the
connection unless it is the last. -/
def headerLoop : Nat → Rio → Line → Option Nat → Headers → Except Stop (Option Nat × Headers)
  | 0, _, _, _, _ => .error .spinning
  | fuel + 1, rp, buf, n, h => do
      let line ← orFault (buf.str 0)
      if line.bytes = crlf ∨ n = some 0 then .ok (n, h)
      else
        let h ← orFault (h.strcat line.bytes)
        let (stored, n, rp) := rioReadlineb rp maxline
        let buf ← orFault (buf.store stored)
        headerLoop fuel rp buf n (h.note line.bytes)

theorem orFault_ne_spinning {α : Type} (a : Option α) : orFault a ≠ .error .spinning := by
  cases a <;> nofun

theorem headerLoop_ne_spinning {fuel : Nat} {rp : Rio} {buf : Line} {n : Option Nat} {h : Headers}
    (hfuel : 0 < fuel) (hrp : n ≠ some 0 → rp.pending + 2 ≤ fuel) :
    headerLoop fuel rp buf n h ≠ .error .spinning := by
  induction fuel generalizing rp buf n h with
  | zero => exact absurd hfuel (Nat.lt_irrefl 0)
  | succ fuel ih =>
      simp only [headerLoop, bind, Except.bind, orFault]
      cases buf.str 0 with
      | none => nofun
      | some line =>
          by_cases hend : line.bytes = crlf ∨ n = some 0
          · simp [hend]
          · have hpending := hrp (not_or.mp hend).2
            simp only [hend, if_false]
            cases h.strcat line.bytes with
            | none => nofun
            | some h =>
                have hread := rioReadlineb_pending rp (show 1 < maxline by decide)
                generalize rioReadlineb rp maxline = r at hread ⊢
                obtain ⟨stored, n', rp'⟩ := r
                cases buf.store stored with
                | none => nofun
                | some buf =>
                    apply ih
                    · omega
                    · intro hn
                      have hlt : rp'.pending < rp.pending := hread.2 hn
                      show rp'.pending + 2 ≤ fuel
                      omega

def userAgentHdr : List UInt8 :=
  chars "User-Agent: Mozilla/5.0 (X11; Linux x86_64; rv:10.0.3) Gecko/20120305 Firefox/10.0.3" ++ crlf

/-- The request for the origin server; `none` when the client's header ends
before its empty line. -/
def changeRequest (buf : Line) (rp : Rio) (uri version hostname : CString) :
    Except Stop (Option (List UInt8)) := do
  let h ← orFault (Headers.strcat { request := [] }
    (chars "GET " ++ uri.bytes ++ chars " " ++ version.bytes ++ crlf))
  let fuel := rp.stream.length + rp.incoming.length + 2
  let (stored, n, rp) := rioReadlineb rp maxline
  let buf ← orFault (buf.store stored)
  let (n, h) ← headerLoop fuel rp buf n h
  if n = some 0 then .ok none
  else
    let h ← h.addHost hostname
    let h ← h.addDefault h.hasUserAgent userAgentHdr
    let h ← h.addDefault h.hasConnection (chars "Connection: close" ++ crlf)
    let h ← h.addDefault h.hasProxyConnection (chars "Proxy-Connection: close" ++ crlf)
    let h ← orFault (h.strcat crlf)
    .ok (some h.request)

theorem bind_ne_error {α β : Type} {e : Stop} {x : Except Stop α} {k : α → Except Stop β}
    (hx : x ≠ .error e) (hk : ∀ a, k a ≠ .error e) : (x >>= k) ≠ .error e := by
  cases x with
  | error e' => exact fun he => hx (congrArg _ (Except.error.inj he))
  | ok a => exact hk a

theorem Headers.addDefault_ne_spinning (h : Headers) (sent : Bool) (text : List UInt8) :
    h.addDefault sent text ≠ .error .spinning := by
  cases sent with
  | true => nofun
  | false => exact orFault_ne_spinning _

theorem Headers.addHost_ne_spinning (h : Headers) (hostname : CString) :
    h.addHost hostname ≠ .error .spinning := by
  unfold addHost
  dsimp only
  split
  · exact h.addDefault_ne_spinning _ _
  · nofun

theorem changeRequest_ne_spinning (buf : Line) (rp : Rio) (uri version hostname : CString) :
    changeRequest buf rp uri version hostname ≠ .error .spinning := by
  unfold changeRequest
  apply bind_ne_error (orFault_ne_spinning _)
  intro h
  have hread := (rioReadlineb_pending rp (show 1 < maxline by decide)).1
  generalize rioReadlineb rp maxline = r at hread ⊢
  obtain ⟨stored, n, rp'⟩ := r
  apply bind_ne_error (orFault_ne_spinning _)
  intro buf
  apply bind_ne_error (headerLoop_ne_spinning (Nat.succ_pos _) fun _ => Nat.add_le_add_right hread 2)
  rintro ⟨n, h⟩
  dsimp only
  split
  · nofun
  · apply bind_ne_error (h.addHost_ne_spinning _)
    intro h
    apply bind_ne_error (h.addDefault_ne_spinning _ _)
    intro h
    apply bind_ne_error (h.addDefault_ne_spinning _ _)
    intro h
    apply bind_ne_error (h.addDefault_ne_spinning _ _)
    intro h
    apply bind_ne_error (orFault_ne_spinning _)
    intro h
    nofun

/-- From `parse_uri` to `make_the_key`: the key, and the request for the
origin server. -/
def prepare (f : Frame) (rp : Rio) (url version : Line) :
    Except Stop (Option (Key × List UInt8)) := do
  let t ← orFault (parseUri f url)
  let version ← orFault (version.str 0)
  let uri ← orFault (t.uri.str 0)
  let hostname ← orFault (t.hostname.str 0)
  let port ← orFault (t.port.str 0)
  match ← changeRequest f.headerBuf rp uri version hostname with
  | none => .ok none
  | some request => .ok (some (makeTheKey hostname port uri, request))

/-! ## The answer -/

/-- What the proxy shares with other threads and with the network: the lock
operations, and the response that a server sends if it can be reached. -/
structure Env where
  ops : LockOps
  openClientfd : CString → CString → Option (List Delivery)

def forward (env : Env) (f : Frame) (s : State) (key : Key) (request : List UInt8)
    (origin : List Delivery) : Outcome State :=
  match relay (rioReadinitb origin) f.responseBuf.bytes with
  | .error e => ⟨[.connect key.host key.port, .request request], .error (.stop e)⟩
  | .ok (writes, buf) =>
      { events := [.connect key.host key.port, .request request, .relayed writes]
        result := Except.mapError Halt.stop do
          let v ← orFault (CString.ofBuffer (buf ++ f.behind))
          insertCache env.ops s key.host key.port key.path (some v) }

/-- `process_request` from `read_cache` on. -/
def answer (env : Env) (f : Frame) (s : State) (key : Key) (request : List UInt8) :
    Outcome State :=
  match readCache env.ops s key with
  | .error e => ⟨[], .error (.stop e)⟩
  | .ok (some v, s) => ⟨[.cached v.bytes], .ok s⟩
  | .ok (none, s) =>
      match env.openClientfd key.host key.port with
      | none => ⟨[], .error .exit⟩
      | some origin => forward env f s key request origin

/-- `process_request` from `parse_uri` on. -/
def serve (env : Env) (f : Frame) (s : State) (rp : Rio) (url version : Line) : Outcome State :=
  match prepare f rp url version with
  | .error e => ⟨[], .error (.stop e)⟩
  | .ok none => ⟨[], .ok s⟩
  | .ok (some (key, request)) => answer env f s key request

def replyThen (page : List (List UInt8) × Except Stop Unit) (rest : Outcome State) :
    Outcome State :=
  match page.2 with
  | .error e => ⟨[.errorPage page.1], .error (.stop e)⟩
  | .ok () => ⟨.errorPage page.1 :: rest.events, rest.result⟩

/-- The replacement of the version is not skipped after an error. -/
def modifyThenServe (env : Env) (f : Frame) (s : State) (r : RequestLine) (rp : Rio)
    (v : CString) : Outcome State :=
  let rest := match modifiedVersion r.version v with
    | none => ⟨[], .error (.stop .fault)⟩
    | some version => serve env f s rp r.url version
  if wrongVersion v then
    replyThen (replyClientError r.method (chars "501") (chars "Not Implemented")
      (chars "Wrong Version Format")) rest
  else rest

def processRequest (env : Env) (f : Frame) (s : State) (client : List Delivery) :
    Outcome State :=
  match readRequest f client with
  | .error e => ⟨[], .error (.stop e)⟩
  | .ok .ended => ⟨[], .ok s⟩
  | .ok .blank =>
      replyThen (replyClientError f.method (chars "400") (chars "Bad Request")
        (chars "Bad Request")) ⟨[], .ok s⟩
  | .ok (.line r rp) =>
      match r.method.str 0, r.url.str 0, r.version.str 0 with
      | some method, some _, some v =>
          if ¬sameLetters method.bytes (chars "GET") then
            replyThen (replyClientError r.method (chars "501") (chars "Not Implemented")
              (chars "Tiny Does not implement this method")) ⟨[], .ok s⟩
          else modifyThenServe env f s r rp v
      | _, _, _ => ⟨[], .error (.stop .fault)⟩

end CsappLabs.Proxy.Request
