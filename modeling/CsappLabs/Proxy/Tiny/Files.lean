import CsappLabs.Proxy.Tiny.Requests
import Mathlib.Data.Nat.Digits.Lemmas

/-!
# The files that clients receive

A client reads the lines of a response up to the empty one and then as many
bytes as the header says.  It receives the file that the path names, unless
the file is empty or its size is not an `int`; then the server has called
`unix_error` or sent something else.
-/

namespace CsappLabs.Proxy.Tiny

open CsappLabs.Foundation
open CsappLabs.Proxy.Request (crlf)

def lengthName : List UInt8 := chars "Content-length: "

/-- The length that is known after a line of the header. -/
def noteLength (line : List UInt8) (length : Option Nat) : Option Nat :=
  if lengthName.isPrefixOf line then
    some (digitsValue ((line.drop lengthName.length).takeWhile isdigit))
  else length

/-- The body of a response; `none` when it is not what the header announces. -/
def receive : Nat → Option Nat → List UInt8 → Option (List UInt8)
  | 0, _, _ => none
  | fuel + 1, length, text =>
      let (line, rest) := cutLine (maxline - 1) text
      if line = crlf then
        match length with
        | none => none
        | some n => if n ≤ rest.length then some (rest.take n) else none
      else if line = [] then none
      else receive fuel (noteLength line length) rest

def received (text : List UInt8) : Option (List UInt8) := receive (text.length + 1) none text

variable {site : Site} {file : File} {path line rest body : List UInt8} {fuel n : Nat}
  {length : Option Nat}

theorem receive_line (hline : 10 ∉ line) (hlen : line.length < maxline - 1)
    (hne : line ++ [10] ≠ crlf) :
    receive (fuel + 1) length (line ++ 10 :: rest) =
      receive fuel (noteLength (line ++ [10]) length) rest := by
  have hnil : line ++ [10] ≠ [] := by simp
  simp only [receive, cutLine_line hline hlen, if_neg hne, if_neg hnil]

theorem receive_body (hbody : n ≤ rest.length) :
    receive (fuel + 1) (some n) (crlf ++ rest) = some (rest.take n) := by
  have hcut : cutLine (maxline - 1) (crlf ++ rest) = (crlf, rest) :=
    @cutLine_line [13] _ (by decide) (by decide) rest
  simp only [receive, hcut, if_true, if_pos hbody]

/-! ## The header of a file -/

theorem getFiletype_mem (filename : List UInt8) :
    getFiletype filename ∈ [chars "text/html", chars "image/gif", chars "image/png",
      chars "image/jpeg", chars "text/plain"] := by
  unfold getFiletype
  repeat' split
  all_goals simp

theorem length_showNat (hn : n < 2 ^ 31) : (showNat n).length ≤ 10 := by
  unfold showNat
  split
  · decide
  · rw [List.length_reverse, List.length_map, Nat.digits_length_le_iff (by decide)]
    omega

theorem noteLength_showNat (n : Nat) (length : Option Nat) :
    noteLength (lengthName ++ showNat n ++ [13] ++ [10]) length = some n := by
  obtain ⟨-, hdigits, hvalue⟩ := numeral_showNat n
  have hstarts : lengthName.isPrefixOf (lengthName ++ showNat n ++ [13] ++ [10]) = true := by
    simp
  have hrest : (lengthName ++ showNat n ++ [13] ++ [10]).drop lengthName.length =
      showNat n ++ [13, 10] := by
    rw [List.append_assoc, List.append_assoc, List.drop_left]
    rfl
  have hcut : (showNat n ++ [13, 10]).takeWhile isdigit = showNat n := by
    rw [List.takeWhile_append_of_pos hdigits, List.takeWhile_cons_of_neg (by decide),
      List.append_nil]
  rw [noteLength, if_pos hstarts, hrest, hcut, hvalue]

theorem typeLine (filename : List UInt8) (length : Option Nat) :
    10 ∉ chars "Content-type: " ++ getFiletype filename ++ [13] ∧
      (chars "Content-type: " ++ getFiletype filename ++ [13]).length < maxline - 1 ∧
      chars "Content-type: " ++ getFiletype filename ++ [13] ++ [10] ≠ crlf ∧
      noteLength (chars "Content-type: " ++ getFiletype filename ++ [13] ++ [10]) length =
        length := by
  have hmem := getFiletype_mem filename
  simp only [List.mem_cons, List.not_mem_nil, or_false] at hmem
  rcases hmem with heq | heq | heq | heq | heq <;>
  · rw [heq]
    exact ⟨by decide, by decide, by decide, if_neg (by decide)⟩

theorem received_static (filename : List UInt8) (hn : n < 2 ^ 31) (hbody : n ≤ body.length) :
    received ((staticHead filename n).flatten ++ body) = some (body.take n) := by
  obtain ⟨-, hdigits, -⟩ := numeral_showNat n
  have hshow : showInt n = showNat n := rfl
  have hdigits' : 10 ∉ showNat n := fun hmem => absurd (hdigits 10 hmem) (by decide)
  have hlen := length_showNat hn
  obtain ⟨htypeLf, htypeLen, htypeNe, htypeNote⟩ := typeLine filename (some n)
  have hname : lengthName.length = 16 := by decide
  have hmax : maxline = 8192 := rfl
  have htext : (staticHead filename n).flatten ++ body =
      (chars "HTTP/1.0 200 OK" ++ [13]) ++ 10 :: ((chars "Server: Tiny Web Server" ++ [13]) ++ 10 ::
        ((lengthName ++ showNat n ++ [13]) ++ 10 ::
          ((chars "Content-type: " ++ getFiletype filename ++ [13]) ++ 10 :: (crlf ++ body)))) := by
    simp [staticHead, startLines, crlf, lengthName, hshow]
  have hfuel : ∃ k, ((staticHead filename n).flatten ++ body).length + 1 = k + 5 := by
    rw [htext]
    refine ⟨((staticHead filename n).flatten ++ body).length - 4, ?_⟩
    rw [htext]
    simp only [List.length_append, List.length_cons]
    omega
  obtain ⟨k, hk⟩ := hfuel
  have hstatus : 10 ∉ chars "HTTP/1.0 200 OK" ++ [13] := by decide
  have hserver : 10 ∉ chars "Server: Tiny Web Server" ++ [13] := by decide
  have hnameLf : 10 ∉ lengthName := by decide
  have hlength : 10 ∉ lengthName ++ showNat n ++ [13] := by
    simp [hnameLf, hdigits']
  have hshort : (lengthName ++ showNat n ++ [13]).length < maxline - 1 := by
    simp only [List.length_append, hname, List.length_singleton]
    omega
  have hne : lengthName ++ showNat n ++ [13] ++ [10] ≠ crlf := by
    intro heq
    have hlong := congrArg List.length heq
    simp only [List.length_append, hname, crlf, List.length_cons, List.length_nil] at hlong
    omega
  rw [received, hk, htext, receive_line hstatus (by decide) (by decide),
    receive_line hserver (by decide) (by decide),
    receive_line hlength hshort hne, noteLength_showNat,
    receive_line htypeLf htypeLen htypeNe, htypeNote, receive_body hbody]

/-! ## The size of a file -/

/-- What is left of the size in an `int` is no more than the size. -/
theorem filesize_cases (file : File) :
    file.filesize ≤ 0 ∨ ∃ n : Nat, file.filesize = n ∧ 0 < n ∧ n < 2 ^ 31 ∧
      n ≤ file.bytes.length ∧ (n = file.bytes.length ↔ file.bytes.length < 2 ^ 31) := by
  by_cases hpos : file.filesize ≤ 0
  · exact .inl hpos
  · refine .inr ⟨file.filesize.toNat, ?_, ?_, ?_, ?_, ?_⟩ <;>
    · simp only [File.filesize, BitVec.toInt_ofNat'] at hpos ⊢
      simp only [Int.bmod_def] at hpos ⊢
      omega

theorem filesize_of_lt (hlt : file.bytes.length < 2 ^ 31) :
    file.filesize = file.bytes.length := by
  simp only [File.filesize, BitVec.toInt_ofNat', Int.bmod_def]
  omega

/-- The client receives the file exactly when its size is positive and an
`int`. -/
theorem file_received (hfile : site.stat (locate path).filename = some file)
    (hstatic : (locate path).isStatic) (hfits : (locate path).filename.length < maxline)
    (hreg : file.isReg ∧ file.irusr) (hopens : file.opens) :
    ((response site path).result = .ok () ∧
        received (response site path).bytes = some file.bytes) ↔
      0 < file.bytes.length ∧ file.bytes.length < 2 ^ 31 := by
  have hserve : response site path = serveStatic (locate path).filename file := by
    simp [response, serve, hfile, hstatic, hfits, hreg.1, hreg.2]
  rw [hserve]
  rcases filesize_cases file with hle | ⟨n, hsize, hpos, hlt, hn, hexact⟩
  · have hexit : (serveStatic (locate path).filename file).result = .error .exit := by
      simp [serveStatic, hopens, Int.not_lt.mpr hle]
    rw [hexit]
    constructor
    · rintro ⟨herror, -⟩
      cases herror
    · rintro ⟨hpos, hlt⟩
      rw [filesize_of_lt hlt] at hle
      omega
  · have hwhole : serveStatic (locate path).filename file =
        ⟨staticHead (locate path).filename n ++ [file.bytes.take n], .ok ()⟩ := by
      simp [serveStatic, hopens, hsize, hpos.ne']
    have hlen : n ≤ (file.bytes.take n).length := by
      rw [List.length_take]
      omega
    have hreceived := received_static (locate path).filename hlt hlen
    rw [List.take_take, Nat.min_self] at hreceived
    rw [hwhole, Response.bytes, List.flatten_append, List.flatten_singleton, hreceived]
    constructor
    · rintro ⟨-, heq⟩
      have hlong := congrArg List.length (Option.some.inj heq)
      rw [List.length_take] at hlong
      omega
    · rintro ⟨-, hsmall⟩
      rw [hexact.mpr hsmall, List.take_length]
      exact ⟨rfl, rfl⟩

theorem file_received_a :
    ((response oneFile (chars "/a")).result = .ok () ∧
        received (response oneFile (chars "/a")).bytes = some [120]) ↔
      0 < [(120 : UInt8)].length ∧ [(120 : UInt8)].length < 2 ^ 31 :=
  @file_received oneFile ⟨true, true, false, true, [120]⟩ (chars "/a") (by decide)
    (by decide) (by decide) ⟨rfl, rfl⟩ rfl

end CsappLabs.Proxy.Tiny
