import Mathlib.Data.List.Basic
import Mathlib.Data.List.Infix
import Mathlib.Data.Nat.Digits.Defs

/-!
# A file from the server to the client

The reply loop of the server sends the file in pieces of up to 2000 bytes, each with a
header of its own and each as a C string. The receive loop of the client leaves after
its first `recv`, so the first result is all that gets into the file.
-/
namespace NetworkLab.FileTransfer

def contentSize : ℕ := 2000
def bufsize : ℕ := 3000

/-- The bytes of a string literal. -/
def ascii (s : String) : List UInt8 := s.toList.map fun c => c.toNat.toUInt8

/-- The text before the first zero byte. -/
def cString (buf : List UInt8) : List UInt8 := buf.takeWhile fun b => decide (b ≠ 0)

/-- What `%lu` prints. -/
def decimal (n : ℕ) : List UInt8 := (Nat.toDigits 10 n).map fun c => c.toNat.toUInt8

/-- The server's string `ok`. -/
def ok : List UInt8 := ascii "HTTP/1.1 200 OK\r\nContent-Length: "

def blankLine : List UInt8 := ascii "\r\n\r\n"

def replyHead (rret : ℕ) : List UInt8 := ok ++ decimal rret ++ blankLine

/-- The reply loop with what it sends for each piece. `readbuf` keeps what earlier pieces
have left behind a shorter one, and where it has no zero byte `%s` reads on into the
memory `behind` it. -/
def replyLoop (behind : ℕ → List UInt8) (i : ℕ) (readbuf file : List UInt8) :
    List (List UInt8) :=
  if h : file = [] then []
  else
    let piece := file.take contentSize
    let readbuf := piece ++ readbuf.drop piece.length
    (replyHead piece.length ++ cString (readbuf ++ behind i)) ::
      replyLoop behind (i + 1) readbuf (file.drop contentSize)
termination_by file.length
decreasing_by
  have hpos := List.length_pos_iff.mpr h
  simp only [List.length_drop, contentSize]
  omega

/-- All bytes that the server sends for the request. -/
def serverStream (behind : ℕ → List UInt8) (file : List UInt8) : List UInt8 :=
  (replyLoop behind 0 (List.replicate contentSize 0) file).flatten

theorem replyLoop_nil (behind : ℕ → List UInt8) (i : ℕ) (readbuf : List UInt8) :
    replyLoop behind i readbuf [] = [] := by
  rw [replyLoop, dif_pos rfl]

/-- White space of `sscanf`. -/
def isSpace (b : UInt8) : Bool := b = 32 || 9 ≤ b && b ≤ 13

/-- `sscanf(buf, "%*[^ ] %[^ ]", state)`, which leaves `state` as it is without a match. -/
def scanState (buf state : List UInt8) : List UInt8 :=
  let text := cString buf
  let skipped := text.dropWhile fun b => decide (b ≠ 32)
  let field := (skipped.dropWhile isSpace).takeWhile fun b => decide (b ≠ 32)
  if skipped.length = text.length ∨ field = [] then state else field

/-- What follows the first empty line, if there is one. -/
def afterHead : List UInt8 → Option (List UInt8)
  | [] => none
  | b :: buf => if (b :: buf).take 4 = blankLine then some (buf.drop 3) else afterHead buf

/-- The bytes that the receive loop writes to the file, from the results of `recv`. Every
way through the loop leaves it; `state` is not initialised. -/
def receiveLoop (state : List UInt8) : List (List UInt8) → List UInt8
  | [] => []
  | result :: _ =>
    if scanState result state = ascii "404" then [] else (afterHead result).getD []

/-- The results of `recv` cut the stream into pieces. -/
structure Cuts (stream : List UInt8) (results : List (List UInt8)) : Prop where
  flatten : results.flatten = stream
  nonempty : ∀ result ∈ results, result ≠ []
  size : ∀ result ∈ results, result.length ≤ bufsize

/-- An empty line that is not there is not there in a prefix. -/
theorem afterHead_prefix {buf l : List UInt8} (hbuf : buf <+: l) (h : afterHead l = none) :
    afterHead buf = none := by
  induction buf generalizing l with
  | nil => rfl
  | cons b buf ih =>
    obtain ⟨t, rfl⟩ := hbuf
    simp only [List.cons_append, afterHead] at h ⊢
    split at h
    · cases h
    next hl =>
      have hnot : ¬ (b :: buf).take 4 = blankLine := by
        intro hb
        have hlen : 4 ≤ (b :: buf).length := by
          have hlen := congrArg List.length hb
          simp [blankLine, ascii] at hlen
          simp
          omega
        refine hl ?_
        rw [← List.cons_append, List.take_append_of_le_length hlen, hb]
      rw [if_neg hnot]
      exact ih (List.prefix_append buf t) h

/-- The search goes past bytes that begin no empty line. -/
theorem afterHead_append {l : List UInt8} (h : 13 ∉ l) (t : List UInt8) :
    afterHead (l ++ t) = afterHead t := by
  induction l with
  | nil => rfl
  | cons b l ih =>
    have hb : ¬ (b :: (l ++ t)).take 4 = blankLine := by
      intro hb
      simp only [List.take_succ_cons] at hb
      exact h (List.mem_cons.mpr (.inl (List.cons.inj hb).1.symm))
    simp only [List.cons_append, afterHead, if_neg hb]
    exact ih fun hl => h (List.mem_cons_of_mem b hl)

/-- The head of a reply up to its last byte has no empty line. -/
theorem afterHead_short {l : List UInt8} (h : 13 ∉ l) :
    afterHead (l ++ ascii "\r\n\r") = none := afterHead_append h _

theorem afterHead_blankLine {l : List UInt8} (h : 13 ∉ l) (t : List UInt8) :
    afterHead (l ++ blankLine ++ t) = some t := by
  rw [List.append_assoc]
  exact afterHead_append h (blankLine ++ t)

/-- The string `ok` has no empty line and does not end in the middle of one. -/
theorem afterHead_ok (l : List UInt8) : afterHead (ok ++ l) = afterHead l := rfl

theorem not_mem_decimal (n : ℕ) : (13 : UInt8) ∉ decimal n := by
  intro h
  obtain ⟨c, hc, hbyte⟩ := List.mem_map.mp h
  have hdigit := Nat.isDigit_of_mem_toDigits (by decide) (by decide) hc
  simp only [Char.isDigit, Bool.and_eq_true, decide_eq_true_eq, ge_iff_le, UInt32.le_iff_toNat_le]
    at hdigit
  have hlow : 48 ≤ c.toNat := hdigit.1
  have hhigh : c.toNat ≤ 57 := hdigit.2
  have hmod := congrArg UInt8.toNat hbyte
  simp only [Nat.toUInt8_eq, UInt8.toNat_ofNat'] at hmod
  change c.toNat % 2 ^ 8 = 13 at hmod
  omega

/-- The client finds the end of a whole head. -/
theorem afterHead_replyHead (n : ℕ) (t : List UInt8) : afterHead (replyHead n ++ t) = some t := by
  simp only [replyHead, List.append_assoc, afterHead_ok]
  simpa using afterHead_blankLine (not_mem_decimal n) t

/-- The client finds no end in a part of a head. -/
theorem afterHead_of_lt {n : ℕ} {result t : List UInt8} (h : result <+: replyHead n ++ t)
    (hlen : result.length < (replyHead n).length) : afterHead result = none := by
  have hshort : afterHead (ok ++ (decimal n ++ ascii "\r\n\r")) = none := by
    rw [afterHead_ok]
    exact afterHead_short (not_mem_decimal n)
  refine afterHead_prefix ?_ hshort
  have hhead : ok ++ (decimal n ++ ascii "\r\n\r") <+: replyHead n ++ t :=
    ⟨[10] ++ t, by simp [replyHead, blankLine, ascii]⟩
  refine List.prefix_of_prefix_length_le h hhead ?_
  simp [replyHead, blankLine, ascii] at hlen ⊢
  omega

/-- The status of a reply with a file. -/
theorem scanState_ok (l state : List UInt8) : scanState (ok ++ l) state = ascii "200" := by
  have htext : cString (ok ++ l) = ok ++ cString l := rfl
  have hskipped : ((ok ++ cString l).dropWhile fun b => decide (b ≠ 32)) =
      ascii " 200 OK\r\nContent-Length: " ++ cString l := rfl
  have hfield : (((ascii " 200 OK\r\nContent-Length: " ++ cString l).dropWhile isSpace).takeWhile
      fun b => decide (b ≠ 32)) = ascii "200" := rfl
  have hlength : ¬ (ascii " 200 OK\r\nContent-Length: " ++ cString l).length =
      (ok ++ cString l).length := by
    simp [ok, ascii]
  simp only [scanState, htext, hskipped, hfield, hlength, false_or]
  rfl

/-- The stream of a file that is not empty begins with the head of its first piece. -/
theorem serverStream_cons (behind : ℕ → List UInt8) {file : List UInt8} (h : file ≠ []) :
    ∃ t, serverStream behind file = replyHead (file.take contentSize).length ++ t := by
  rw [serverStream, replyLoop, dif_neg h]
  exact ⟨_, by simp only [List.flatten_cons, List.append_assoc]; rfl⟩

/-- The file that the client writes is the file of the server exactly when the first
`recv` gives the first head and then the whole file, or when the file is empty. -/
theorem transfer_faithful_iff {behind : ℕ → List UInt8} {file : List UInt8}
    {results : List (List UInt8)} (state : List UInt8)
    (hcuts : Cuts (serverStream behind file) results) :
    receiveLoop state results = file ↔
      file = [] ∨ ∃ rest,
        results = (replyHead (file.take contentSize).length ++ file) :: rest := by
  by_cases hfile : file = []
  · subst hfile
    have hnil : results = [] := by
      cases results with
      | nil => rfl
      | cons result rest =>
        have hflat := hcuts.flatten
        rw [serverStream, replyLoop_nil] at hflat
        simp [hcuts.nonempty result List.mem_cons_self] at hflat
    simp [hnil, receiveLoop]
  · obtain ⟨t, hstream⟩ := serverStream_cons behind hfile
    cases results with
    | nil =>
      have hflat := hcuts.flatten
      rw [hstream] at hflat
      simp [replyHead, ok, ascii] at hflat
    | cons result rest =>
      have hprefix : result <+: replyHead (file.take contentSize).length ++ t :=
        ⟨rest.flatten, by rw [← hstream, ← hcuts.flatten, List.flatten_cons]⟩
      by_cases hlen : result.length < (replyHead (file.take contentSize).length).length
      · -- The first result ends inside of the head: nothing is written.
        have hnothing : receiveLoop state (result :: rest) = [] := by
          simp [receiveLoop, afterHead_of_lt hprefix hlen]
        rw [hnothing]
        refine iff_of_false (fun h => hfile h.symm) ?_
        rintro (h | ⟨rest', h⟩)
        · exact hfile h
        · rw [(List.cons.inj h).1, List.length_append] at hlen
          omega
      · obtain ⟨u, rfl⟩ := List.prefix_of_prefix_length_le
          (List.prefix_append (replyHead (file.take contentSize).length) t) hprefix (by omega)
        have hwritten : receiveLoop state
            ((replyHead (file.take contentSize).length ++ u) :: rest) = u := by
          have hstate : scanState (replyHead (file.take contentSize).length ++ u) state =
              ascii "200" := by
            simp only [replyHead, List.append_assoc, scanState_ok]
          have hstatus : ¬ ascii "200" = ascii "404" := by decide
          rw [receiveLoop, hstate, if_neg hstatus, afterHead_replyHead, Option.getD_some]
        rw [hwritten]
        simp [hfile]

section Instance

/-- A short file is sent in one piece, up to its first zero byte. -/
theorem serverStream_short (behind : ℕ → List UInt8) {file : List UInt8} (h : file ≠ [])
    (hlen : file.length ≤ contentSize) :
    serverStream behind file = replyHead file.length ++
      cString (file ++ (List.replicate contentSize 0).drop file.length ++ behind 0) := by
  have htake : file.take contentSize = file := List.take_of_length_le hlen
  have hdrop : file.drop contentSize = [] := List.drop_of_length_le hlen
  rw [serverStream, replyLoop, dif_neg h]
  simp [htake, hdrop, replyLoop_nil]

/-- A stream that `recv` gives at once. -/
theorem cuts_whole {stream : List UInt8} (h : stream ≠ []) (hlen : stream.length ≤ bufsize) :
    Cuts stream [stream] :=
  ⟨by simp, by simpa using h, by simpa using hlen⟩

theorem serverStream_hi : serverStream (fun _ => []) (ascii "Hi") =
    replyHead 2 ++ ascii "Hi" := by
  rw [serverStream_short _ (by decide) (by decide)]
  decide +kernel

theorem serverStream_zero : serverStream (fun _ => []) [65, 0, 66] = replyHead 3 ++ [65] := by
  rw [serverStream_short _ (by decide) (by decide)]
  decide +kernel

/-- A short text that arrives with its head is written as it is. -/
theorem transfer_faithful_hi : ∃ results,
    Cuts (serverStream (fun _ => []) (ascii "Hi")) results ∧
      receiveLoop [] results = ascii "Hi" := by
  have hcuts : Cuts (serverStream (fun _ => []) (ascii "Hi"))
      [serverStream (fun _ => []) (ascii "Hi")] := by
    rw [serverStream_hi]
    exact cuts_whole (by decide +kernel) (by decide +kernel)
  refine ⟨_, hcuts, (transfer_faithful_iff [] hcuts).mpr (.inr ⟨[], ?_⟩)⟩
  rw [serverStream_hi]
  rfl

/-- A file with a zero byte is cut there, and of a text that arrives in two pieces only
the first one is written. -/
theorem transfer_not_faithful :
    (∃ results, Cuts (serverStream (fun _ => []) [65, 0, 66]) results ∧
      receiveLoop [] results ≠ [65, 0, 66]) ∧
    ∃ results, Cuts (serverStream (fun _ => []) (ascii "Hi")) results ∧
      receiveLoop [] results ≠ ascii "Hi" := by
  constructor
  · rw [serverStream_zero]
    exact ⟨_, cuts_whole (by decide +kernel) (by decide +kernel), by decide +kernel⟩
  · rw [serverStream_hi]
    exact ⟨[replyHead 2 ++ ascii "H", ascii "i"],
      ⟨by decide +kernel, by decide +kernel, by decide +kernel⟩, by decide +kernel⟩

end Instance

end NetworkLab.FileTransfer
