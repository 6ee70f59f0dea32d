import Coinyecoin.Foundation.Lines
import Coinyecoin.Stratum.Answers

/-!
# Line framing

The reading loop of `StratumClientThread`. Each `recv` gives a chunk of at most
4096 bytes, which is appended to a buffer; a buffer of more than 128 KiB ends the
connection, and otherwise the complete lines are taken out of it and passed to
`HandleLine`, without a trailing carriage return and unless they are empty. An
exception of `HandleLine` is caught and the loop goes on.

`HandleLine` is a parameter: it takes what the thread works on to what it leaves,
and may throw. Waiting for data and the adjustment of the difficulty, which touch
neither the buffer nor the lines, are left out.
-/

namespace Coinyecoin

namespace Stratum

open Foundation List

def RECV_SIZE : ℕ := 4096

/-- The largest buffer that is not taken for protocol abuse. -/
def MAX_BUFFER : ℕ := 128 * 1024

def LF : UInt8 := 10

def CR : UInt8 := 13

/-- What the reading loop carries: the buffer, and what the lines act on. -/
structure LineReader (σ : Type) where
  strBuffer : StdString
  state : σ

section

variable {σ : Type} (handleLine : σ → StdString → σ × Option Fault)

def stripReturn (strLine : StdString) : StdString :=
  if strLine.getLast? = some CR then strLine.dropLast else strLine

/-- Passes on a line that was cut out of the buffer. What `HandleLine` throws is
only logged. -/
def passLine (state : σ) (strLine : StdString) : σ :=
  let strLine := stripReturn strLine
  if strLine.isEmpty then state else (handleLine state strLine).1

/-- The loop that takes complete lines out of the buffer; the first argument bounds
its rounds. -/
def takeLines : ℕ → LineReader σ → LineReader σ
  | 0, r => r
  | fuel + 1, r =>
    match r.strBuffer.findIdx? (· == LF) with
    | none => r
    | some nPos => takeLines fuel
        { strBuffer := r.strBuffer.drop (nPos + 1)
          state := passLine handleLine r.state (r.strBuffer.take nPos) }

/-- One round of the reading loop; `none` where it breaks off for protocol
abuse. -/
def receive (r : LineReader σ) (pchBuf : StdString) : Option (LineReader σ) :=
  let strBuffer := r.strBuffer ++ pchBuf
  if strBuffer.length > MAX_BUFFER then none
  else some (takeLines handleLine strBuffer.length { r with strBuffer := strBuffer })

def clientThread (state : σ) (chunks : List StdString) : Option (LineReader σ) :=
  chunks.foldlM (receive handleLine) ⟨[], state⟩

end

/-- The lines of a stream with their newlines; the last one may still lack it. -/
def streamLines (stream : StdString) : List StdString :=
  (Lines.bodies LF stream).map (· ++ [LF]) ++ [Lines.rest LF stream]

/-- What `HandleLine` is to see of a stream. -/
def requestLines (stream : StdString) : List StdString :=
  ((Lines.bodies LF stream).map stripReturn).filter fun strLine => !strLine.isEmpty

section

variable {σ : Type} {handleLine : σ → StdString → σ × Option Fault}

theorem findIdx?_line {body : StdString} (hbody : LF ∉ body) (more : StdString) :
    (body ++ LF :: more).findIdx? (· == LF) = some body.length := by
  rw [findIdx?_append, findIdx?_eq_none_iff.2]
  · simp [findIdx?_cons]
  · intro c hc
    exact beq_eq_false_iff_ne.2 (ne_of_mem_of_not_mem hc hbody)

theorem takeLines_eq (strBuffer : StdString) {fuel : ℕ} (hfuel : strBuffer.length ≤ fuel)
    (state : σ) :
    takeLines handleLine fuel ⟨strBuffer, state⟩ =
      ⟨Lines.rest LF strBuffer,
        (Lines.bodies LF strBuffer).foldl (passLine handleLine) state⟩ := by
  induction strBuffer using Lines.lines_induction LF generalizing fuel state with
  | line body more hbody ih =>
    obtain ⟨hbodies, hrest⟩ := Lines.bodies_rest_line hbody more
    rw [length_append, length_cons] at hfuel
    obtain ⟨fuel, rfl⟩ := Nat.exists_eq_add_one.2 (show 0 < fuel by omega)
    simp only [takeLines, findIdx?_line hbody]
    have htake : (body ++ LF :: more).take body.length = body := take_left
    have hdrop : (body ++ LF :: more).drop (body.length + 1) = more := by
      rw [drop_append, drop_of_length_le (by omega)]
      simp
    rw [htake, hdrop, ih (by omega), hbodies, hrest, foldl_cons]
  | unfinished l hl =>
    obtain ⟨hbodies, hrest⟩ := Lines.bodies_rest_of_not_mem hl
    rw [hbodies, hrest, foldl_nil]
    cases fuel with
    | zero => rfl
    | succ fuel =>
      have hnone : l.findIdx? (· == LF) = none :=
        findIdx?_eq_none_iff.2 fun c hc =>
          beq_eq_false_iff_ne.2 (ne_of_mem_of_not_mem hc hl)
      simp only [takeLines, hnone]

theorem foldl_passLine (bodies : List StdString) (state : σ) :
    bodies.foldl (passLine handleLine) state =
      ((bodies.map stripReturn).filter fun strLine => !strLine.isEmpty).foldl
        (fun state strLine => (handleLine state strLine).1) state := by
  induction bodies generalizing state with
  | nil => rfl
  | cons body bodies ih =>
    rw [foldl_cons, ih, map_cons, filter_cons, passLine]
    by_cases hempty : (stripReturn body).isEmpty
    · simp [hempty]
    · simp [hempty]

/-- What the thread holds after it has read `stream`. -/
def LineReader.after (handleLine : σ → StdString → σ × Option Fault) (state : σ)
    (stream : StdString) : LineReader σ :=
  ⟨Lines.rest LF stream, (Lines.bodies LF stream).foldl (passLine handleLine) state⟩

theorem receive_after {state : σ} {stream pchBuf : StdString}
    (hsize : (Lines.rest LF stream).length + pchBuf.length ≤ MAX_BUFFER) :
    receive handleLine (.after handleLine state stream) pchBuf =
      some (.after handleLine state (stream ++ pchBuf)) := by
  obtain ⟨hbodies, hrest⟩ := Lines.bodies_rest_append LF stream pchBuf
  have hfits : ¬ (Lines.rest LF stream ++ pchBuf).length > MAX_BUFFER := by
    rw [length_append]
    omega
  simp only [receive, LineReader.after, if_neg hfits, takeLines_eq _ le_rfl]
  rw [hbodies, hrest, foldl_append]

theorem foldlM_receive {state : σ} {chunks : List StdString} (stream : StdString)
    (hchunks : ∀ chunk ∈ chunks, chunk.length ≤ RECV_SIZE)
    (hlines : ∀ line ∈ streamLines (stream ++ chunks.flatten),
      line.length ≤ MAX_BUFFER - RECV_SIZE) :
    chunks.foldlM (receive handleLine) (.after handleLine state stream) =
      some (.after handleLine state (stream ++ chunks.flatten)) := by
  induction chunks generalizing stream with
  | nil => simp
  | cons chunk chunks ih =>
    obtain ⟨hchunk, hchunks⟩ := forall_mem_cons.1 hchunks
    have hbodies : ∀ body ∈ Lines.bodies LF (stream ++ (chunk :: chunks).flatten),
        body.length ≤ MAX_BUFFER - RECV_SIZE := by
      intro body hbody
      have hlen := hlines (body ++ [LF])
        (mem_append_left _ (mem_map_of_mem hbody))
      rw [length_append] at hlen
      omega
    have hrest := hlines _ (mem_append_right _ (mem_singleton_self _))
    have hbuffer := Lines.length_rest_le hbodies hrest
    have hsize : (Lines.rest LF stream).length + chunk.length ≤ MAX_BUFFER := by
      have hle : RECV_SIZE ≤ MAX_BUFFER := by decide
      omega
    rw [flatten_cons, ← append_assoc] at hlines ⊢
    rw [foldlM_cons, receive_after hsize]
    exact ih (stream ++ chunk) hchunks hlines

/-- However a stream of lines of bounded length is cut into chunks, `HandleLine`
gets its lines in order and the connection is kept. -/
theorem clientThread_lines (handleLine : σ → StdString → σ × Option Fault) (state : σ)
    (chunks : List StdString) (hchunks : ∀ chunk ∈ chunks, chunk.length ≤ RECV_SIZE)
    (hlines : ∀ line ∈ streamLines chunks.flatten, line.length ≤ MAX_BUFFER - RECV_SIZE) :
    clientThread handleLine state chunks =
      some ⟨Lines.rest LF chunks.flatten,
        (requestLines chunks.flatten).foldl
          (fun state strLine => (handleLine state strLine).1) state⟩ := by
  rw [clientThread, requestLines, ← foldl_passLine]
  exact foldlM_receive [] hchunks hlines

/-- A request that arrives in two parts, after an empty line. -/
theorem clientThread_lines_split :
    clientThread (fun lines strLine => (lines ++ [strLine], none)) []
        [[LF, 123], [125, CR, LF, 123]] = some ⟨[123], [[123, 125]]⟩ :=
  clientThread_lines _ _ [[LF, 123], [125, CR, LF, 123]] (by decide) (by decide)

end

section

variable {D : Type} (env : StratumEnv D) (clock : Clock) (mapJobs : List StratumJob)
  (current : Option StratumJob)

/-- The server's own `HandleLine`, with what it throws. -/
def serve (client : StratumClient D) (strLine : StdString) : StratumClient D × Option Fault :=
  (serveLine env clock mapJobs current client strLine,
    match handleLine env clock mapJobs client strLine with
    | .error fault => some fault
    | .ok _ => none)

theorem clientThread_serve (client : StratumClient D) {chunks : List StdString}
    (hchunks : ∀ chunk ∈ chunks, chunk.length ≤ RECV_SIZE)
    (hlines : ∀ line ∈ streamLines chunks.flatten, line.length ≤ MAX_BUFFER - RECV_SIZE) :
    clientThread (serve env clock mapJobs current) client chunks =
      some ⟨Lines.rest LF chunks.flatten,
        (requestLines chunks.flatten).foldl (serveLine env clock mapJobs current) client⟩ := by
  refine (foldlM_receive [] hchunks hlines).trans ?_
  rw [LineReader.after, foldl_passLine]
  rfl

end

end Stratum

end Coinyecoin
