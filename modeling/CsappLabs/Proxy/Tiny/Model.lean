import CsappLabs.Foundation.Decimal
import CsappLabs.Proxy.Request.Model

/-!
# The Tiny server

`doit` of `tiny.c` and the functions that it calls.  Its file system and its
CGI programs are parameters.  Where the wrappers of the proxy's `csapp.c` go on
after a reset connection, those of this server call `unix_error`.
-/

namespace CsappLabs.Proxy.Tiny

open CsappLabs.Foundation
open CsappLabs.Proxy.Request (Line Halt orFault crlf contains scanWords writeAll)

/-- What `stat` tells about a name, whether `open` succeeds, and what it opens. -/
structure File where
  isReg : Bool
  irusr : Bool
  ixusr : Bool
  opens : Bool
  bytes : List UInt8
  deriving DecidableEq

/-- `execve` gives what the program of this name writes for a query string. -/
structure Site where
  stat : List UInt8 → Option File
  execve : List UInt8 → List UInt8 → List UInt8

/-- What is written to the client, also when the call does not return. -/
structure Response where
  writes : List (List UInt8)
  result : Except Halt Unit
  deriving DecidableEq

def Response.halt (why : Halt) : Response := ⟨[], .error why⟩

def Response.fault : Response := .halt (.stop .fault)

def Response.bytes (r : Response) : List UInt8 := r.writes.flatten

structure Frame where
  buf : Line
  method : Line
  uri : Line
  version : Line
  filename : Line
  cgiargs : Line
  headerBuf : Line

/-! ## Writing -/

def errorPage (cause errnum shortmsg longmsg : List UInt8) : List (List UInt8) :=
  [chars "HTTP/1.0 " ++ errnum ++ chars " " ++ shortmsg ++ crlf,
    chars "Content-type: text/html" ++ crlf ++ crlf,
    chars "<html><title>Tiny Error</title>",
    chars "<body bgcolor=ffffff>" ++ crlf,
    errnum ++ chars ": " ++ shortmsg ++ crlf,
    chars "<p>" ++ longmsg ++ chars ": " ++ cause ++ crlf,
    chars "<hr><em>The Tiny Web server</em>" ++ crlf]

def clienterror (cause errnum shortmsg longmsg : List UInt8) : Response :=
  let (writes, r) := writeAll (errorPage cause errnum shortmsg longmsg)
  ⟨writes, r.mapError .stop⟩

def getFiletype (filename : List UInt8) : List UInt8 :=
  if contains filename ".html" then chars "text/html"
  else if contains filename ".gif" then chars "image/gif"
  else if contains filename ".png" then chars "image/png"
  else if contains filename ".jpg" then chars "image/jpeg"
  else chars "text/plain"

/-- The first part of every response that is not an error page. -/
def startLines : List (List UInt8) :=
  [chars "HTTP/1.0 200 OK" ++ crlf, chars "Server: Tiny Web Server" ++ crlf]

def staticHead (filename : List UInt8) (filesize : Int) : List (List UInt8) :=
  startLines ++
    [chars "Content-length: " ++ showInt filesize ++ crlf,
      chars "Content-type: " ++ getFiletype filename ++ crlf ++ crlf]

/-- `st_size` as the parameter `filesize`, which is an `int`. -/
def File.filesize (file : File) : Int := (BitVec.ofNat 32 file.bytes.length).toInt

/-- `serve_static`.  `mmap` refuses to map nothing, and a negative size is too
large for it. -/
def serveStatic (filename : List UInt8) (file : File) : Response :=
  let head := staticHead filename file.filesize
  if file.opens ∧ 0 < file.filesize then
    ⟨head ++ [file.bytes.take file.filesize.toNat], .ok ()⟩
  else ⟨head, .error .exit⟩

def serveDynamic (site : Site) (filename cgiargs : List UInt8) : Response :=
  ⟨startLines ++ [site.execve filename cgiargs], .ok ()⟩

/-! ## The request -/

structure Target where
  isStatic : Bool
  filename : Line
  cgiargs : Line

/-- `parse_uri`.  With an empty string the last character is looked for in
front of the array. -/
def parseUri (f : Frame) (uri : Line) : Option Target := do
  let text ← uri.str 0
  if ¬contains text.bytes "cgi-bin" then
    let cgiargs ← f.cgiargs.store [0]
    let filename ← f.filename.store (chars "." ++ text.bytes ++ [0])
    let last ← text.bytes.getLast?
    if last = 47 then
      let filename ← filename.store (chars "." ++ text.bytes ++ chars "home.html" ++ [0])
      some ⟨true, filename, cgiargs⟩
    else some ⟨true, filename, cgiargs⟩
  else
    match strstr (chars "?") text.bytes with
    | some i =>
        let cgiargs ← f.cgiargs.store (text.bytes.drop (i + 1) ++ [0])
        let filename ← f.filename.store (chars "." ++ text.bytes.take i ++ [0])
        some ⟨false, filename, cgiargs⟩
    | none =>
        let cgiargs ← f.cgiargs.store [0]
        let filename ← f.filename.store (chars "." ++ text.bytes ++ [0])
        some ⟨false, filename, cgiargs⟩

/-- The loop of `read_requesthdrs`.  At the end of the input a read stores
nothing, and the line before is looked at again. -/
def readRequesthdrs : Nat → Rio → Line → Except Halt Unit
  | 0, _, _ => .error (.stop .spinning)
  | fuel + 1, rp, buf =>
      match rioReadlineb rp maxline with
      | (_, none, _) => .error .exit
      | (stored, some _, rp) =>
          match buf.store stored with
          | none => .error (.stop .fault)
          | some buf =>
              match buf.str 0 with
              | none => .error (.stop .fault)
              | some line => if line.bytes = crlf then .ok () else readRequesthdrs fuel rp buf

/-- `doit` from `stat` on. -/
def serve (site : Site) (isStatic : Bool) (filename cgiargs : List UInt8) : Response :=
  match site.stat filename with
  | none => clienterror filename (chars "404") (chars "Not found")
      (chars "Tiny couldn't find this file")
  | some file =>
      if isStatic then
        if ¬file.isReg ∨ ¬file.irusr then
          clienterror filename (chars "403") (chars "Forbidden")
            (chars "Tiny couldn't read the file")
        else serveStatic filename file
      else if ¬file.isReg ∨ ¬file.ixusr then
        clienterror filename (chars "403") (chars "Forbidden")
          (chars "Tiny couldn't run the CGI program")
      else serveDynamic site filename cgiargs

/-- `doit` from `parse_uri` on. -/
def serveUri (site : Site) (f : Frame) (uri : Line) : Response :=
  match parseUri f uri with
  | none => .fault
  | some t =>
      match t.filename.str 0, t.cgiargs.str 0 with
      | some filename, some cgiargs => serve site t.isStatic filename.bytes cgiargs.bytes
      | _, _ => .fault

structure RequestLine where
  method : Line
  uri : Line
  version : Line

def scanRequest (f : Frame) (text : List UInt8) : Option RequestLine :=
  (scanWords f.method f.uri f.version text).map fun r => ⟨r.method, r.url, r.version⟩

/-- `doit` up to the request line; `none` when the client sends nothing. -/
def readRequest (f : Frame) (client : List Delivery) : Except Halt (Option (RequestLine × Rio)) :=
  match rioReadlineb (rioReadinitb client) maxline with
  | (_, none, _) => .error .exit
  | (stored, some n, rp) =>
      if n = 0 then .ok none
      else
        match f.buf.store stored >>= fun buf => buf.str 0 >>= fun text =>
          scanRequest f text.bytes with
        | none => .error (.stop .fault)
        | some r => .ok (some (r, rp))

/-- `fuel` bounds the lines of the header. -/
def doit (site : Site) (f : Frame) (fuel : Nat) (client : List Delivery) : Response :=
  match readRequest f client with
  | .error e => .halt e
  | .ok none => ⟨[], .ok ()⟩
  | .ok (some (r, rp)) =>
      match r.method.str 0, r.uri.str 0, r.version.str 0 with
      | some method, some _, some _ =>
          if ¬sameLetters method.bytes (chars "GET") then
            clienterror method.bytes (chars "501") (chars "Not Implemented")
              (chars "Tiny does not implement this method")
          else
            match readRequesthdrs fuel rp f.headerBuf with
            | .error e => .halt e
            | .ok () => serveUri site f r.uri
      | _, _, _ => .fault

end CsappLabs.Proxy.Tiny
