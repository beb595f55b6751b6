import NetworkLab.SendWindow

/-!
# What `tcp_sock_write` sends

Each round of the loop asks `strlen` how much of the buffer there is, whatever length the
caller has given, so the loop makes no progress at a zero byte. The lengths are computed in
`size_t` and stored in `int`.
-/
namespace NetworkLab.Tcp

section Lengths

/-- The conversion to `int`. -/
def toInt (n : ℤ) : ℤ := n.bmod (2 ^ 32)

/-- `strlen` of a buffer from which on the memory can be read as far as `mem` goes. -/
def strlenIn (mem : List UInt8) : Option ℕ := if 0 ∈ mem then some (strlen mem) else none

theorem strlenIn_eq_some_iff {mem : List UInt8} {n : ℕ} :
    strlenIn mem = some n ↔ 0 ∈ mem ∧ strlen mem = n := by
  simp [strlenIn]

theorem strlen_le (mem : List UInt8) : strlen mem ≤ mem.length :=
  (List.takeWhile_sublist _).length_le

/-- `valid_len`, where `n` is what `strlen` returns. -/
def validLen (len sent : ℤ) (n : ℕ) : ℤ := toInt (toSizeT (min (toSizeT len) n - toSizeT sent))

def dataLen (validLen : ℤ) : ℤ := toInt (min (mss : ℤ) (toSizeT validLen))

theorem toSizeT_of_nonneg {n : ℤ} (h : 0 ≤ n) (hlt : n < 2 ^ 64) : toSizeT n = n :=
  Int.emod_eq_of_lt h hlt

theorem toInt_of_lt {n : ℤ} (h : 0 ≤ n) (hlt : n < 2 ^ 31) : toInt n = n :=
  Int.bmod_eq_of_le (by omega) (by omega)

/-- Nothing wraps as long as no more is sent than there is. -/
theorem dataLen_eq {len sent : ℤ} {n : ℕ} (hsent : 0 ≤ sent) (hle : sent ≤ min len n)
    (hlen : len < 2 ^ 31) : dataLen (validLen len sent n) = min (mss : ℤ) (min len n - sent) := by
  have hsize : toSizeT len = len := toSizeT_of_nonneg (by omega) (by omega)
  have hsize' : toSizeT sent = sent := toSizeT_of_nonneg hsent (by omega)
  have hvalid : validLen len sent n = min len n - sent := by
    rw [validLen, hsize, hsize', toSizeT_of_nonneg (by omega) (by omega),
      toInt_of_lt (by omega) (by omega)]
  rw [dataLen, hvalid, toSizeT_of_nonneg (by omega) (by omega)]
  unfold mss
  exact toInt_of_lt (by omega) (by omega)

/-- `strlen` reaches the end of the buffer if it meets no zero there. -/
theorem le_strlen_iff {mem : List UInt8} {k : ℕ} (hk : k ≤ mem.length) :
    k ≤ strlen mem ↔ ∀ b ∈ mem.take k, b ≠ 0 := by
  unfold strlen
  induction mem generalizing k with
  | nil =>
    obtain rfl : k = 0 := by simpa using hk
    simp
  | cons b mem ih =>
    cases k with
    | zero => simp
    | succ k =>
      have hrest := ih (Nat.le_of_succ_le_succ hk)
      by_cases hb : b = 0
      · simp [hb]
      · simpa [hb] using hrest

end Lengths

section Loop

/-- What the socket is when the inner loop ends that waits for the window, for each
segment; other threads change it before. -/
structure Waits where
  after : ℕ → TcpSock → TcpSock
  opened : ∀ i tsk, ¬MustWait (after i tsk)

inductive WriteOutcome
  | returned (sent : ℤ) (emitted : List Segment)
  | running
  | undefined

/-- The loop of `tcp_sock_write`. It is undefined where `strlen` or the copy of the payload
leaves the memory that can be read. -/
def tcpSockWrite (mem : List UInt8) (len : ℤ) (waits : Waits) :
    ℕ → TcpSock → ℤ → List Segment → WriteOutcome
  | 0, _, _, _ => .running
  | fuel + 1, tsk, sent, emitted =>
    if sent < len then
      match strlenIn mem with
      | none => .undefined
      | some n =>
        let size := dataLen (validLen len sent n)
        if sent + size ≤ mem.length then
          let data := (mem.drop sent.toNat).take size.toNat
          tcpSockWrite mem len waits fuel (waits.after emitted.length (afterData tsk data))
            (sent + size) (emitted ++ [dataPacket tsk data])
        else .undefined
    else .returned sent emitted

/-- The call returns the length of the buffer, and the segments that it has sent are the
buffer. -/
def SendsAll (mem : List UInt8) (len : ℤ) (waits : Waits) (tsk : TcpSock) : Prop :=
  ∃ fuel emitted, tcpSockWrite mem len waits fuel tsk 0 [] = .returned len emitted ∧
    (emitted.map (·.data)).flatten = mem.take len.toNat ∧
    ∀ seg ∈ emitted, 1 ≤ seg.data.length ∧ seg.data.length ≤ mss

variable {mem : List UInt8} {len : ℤ} (waits : Waits)

/-- What a round sends. -/
def roundData (mem : List UInt8) (sent size : ℤ) : List UInt8 :=
  (mem.drop sent.toNat).take size.toNat

/-- The calls that share a window with ACKs and timeouts send the same. -/
theorem payload_eq_roundData {n len sent : ℕ} (waiting : Bool) (hn : strlenIn mem = some n) :
    (WriteCall.mk mem len sent waiting).payload =
      roundData mem sent (min (mss : ℤ) (min (len : ℤ) n - sent)) := by
  obtain rfl := (strlenIn_eq_some_iff.mp hn).2
  have hsize : (min (mss : ℤ) (min (len : ℤ) (strlen mem) - sent)).toNat =
      min mss (min len (strlen mem) - sent) := by omega
  rw [roundData, hsize, Int.toNat_natCast]
  rfl

/-- A round of the loop. -/
theorem tcpSockWrite_round {n : ℕ} {sent : ℤ} (fuel : ℕ) (tsk : TcpSock)
    (emitted : List Segment) (hn : strlenIn mem = some n) (hlen : len < 2 ^ 31) (hsent : 0 ≤ sent)
    (hle : sent ≤ min len n) (hlt : sent < len) :
    tcpSockWrite mem len waits (fuel + 1) tsk sent emitted =
      let size := min (mss : ℤ) (min len n - sent)
      let data := roundData mem sent size
      tcpSockWrite mem len waits fuel (waits.after emitted.length (afterData tsk data))
        (sent + size) (emitted ++ [dataPacket tsk data]) := by
  have hread : sent + min (mss : ℤ) (min len n - sent) ≤ mem.length := by
    have hstrlen := (strlenIn_eq_some_iff.mp hn).2
    have hmem := strlen_le mem
    omega
  simp only [tcpSockWrite, hlt, hn, dataLen_eq hsent hle hlen, hread, if_true]
  rfl

/-- At a zero byte the loop makes no progress. -/
theorem tcpSockWrite_stuck {n fuel : ℕ} {tsk : TcpSock} {sent : ℤ} {emitted : List Segment}
    (hn : strlenIn mem = some n) (hlen : len < 2 ^ 31) (hshort : n < len) (hsent : 0 ≤ sent)
    (hle : sent ≤ n) : tcpSockWrite mem len waits fuel tsk sent emitted = .running := by
  induction fuel generalizing tsk sent emitted with
  | zero => rfl
  | succ fuel ih =>
    rw [tcpSockWrite_round waits fuel tsk emitted hn hlen hsent (by omega) (by omega)]
    apply ih <;> omega

theorem length_roundData {sent : ℤ} {size : ℕ} (hsent : 0 ≤ sent)
    (hle : sent + size ≤ mem.length) : (roundData mem sent size).length = size := by
  rw [roundData, List.length_take, List.length_drop]
  omega

/-- What a round sends and what it leaves. -/
theorem roundData_append {sent : ℤ} {size : ℕ} (hsent : 0 ≤ sent) (hle : sent + size ≤ len) :
    roundData mem sent size ++ roundData mem (sent + size) (len - (sent + size)) =
      roundData mem sent (len - sent) := by
  have hdrop : (sent + size).toNat = sent.toNat + size := by omega
  have htake : (len - sent).toNat = size + (len - (sent + size)).toNat := by omega
  simp only [roundData, hdrop, htake, List.take_add, List.drop_drop, Int.toNat_natCast]

/-- Without a zero byte the loop sends what is left. -/
theorem tcpSockWrite_sends {n fuel : ℕ} (sent : ℤ) (tsk : TcpSock) (emitted : List Segment)
    (hn : strlenIn mem = some n) (hlen : len < 2 ^ 31) (hlong : len ≤ n) (hsent : 0 ≤ sent)
    (hle : sent ≤ len) (hfuel : len - sent < fuel) :
    ∃ rest, tcpSockWrite mem len waits fuel tsk sent emitted = .returned len (emitted ++ rest) ∧
      (rest.map (·.data)).flatten = roundData mem sent (len - sent) ∧
      ∀ seg ∈ rest, 1 ≤ seg.data.length ∧ seg.data.length ≤ mss := by
  induction fuel generalizing tsk sent emitted with
  | zero => omega
  | succ fuel ih =>
    by_cases hdone : sent = len
    · refine ⟨[], ?_, ?_, ?_⟩
      · simp [tcpSockWrite, hdone]
      · simp [roundData, hdone]
      · simp
    have hmss : mss = 1460 := rfl
    have hstrlen := (strlenIn_eq_some_iff.mp hn).2
    have hmem := strlen_le mem
    obtain ⟨size, hsize⟩ : ∃ size : ℕ, min (mss : ℤ) (min len n - sent) = size :=
      ⟨_, (Int.toNat_of_nonneg (by omega)).symm⟩
    have hround := tcpSockWrite_round waits fuel tsk emitted hn hlen hsent (by omega) (by omega)
    simp only [hsize] at hround
    let packet := dataPacket tsk (roundData mem sent size)
    obtain ⟨rest, hreturn, hflatten, hsizes⟩ :=
      ih (sent + size) (waits.after emitted.length (afterData tsk (roundData mem sent size)))
        (emitted ++ [packet]) (by omega) (by omega) (by omega)
    refine ⟨packet :: rest, ?_, ?_, ?_⟩
    · rw [hround, hreturn, List.append_assoc]
      rfl
    · rw [List.map_cons, List.flatten_cons, hflatten]
      exact roundData_append hsent (by omega)
    · intro seg hseg
      rcases List.mem_cons.mp hseg with rfl | hrest
      · have hlength : packet.data.length = size := length_roundData hsent (by omega)
        omega
      · exact hsizes seg hrest

/-- The call sends the whole buffer if and only if there is no zero in it and one after it. -/
theorem tcpSockWrite_sends_all_iff (tsk : TcpSock) (hpos : 0 < len) (hreadable : len ≤ mem.length)
    (hint : len < 2 ^ 31) :
    SendsAll mem len waits tsk ↔ (∀ b ∈ mem.take len.toNat, b ≠ 0) ∧ 0 ∈ mem := by
  have hshort : len.toNat ≤ mem.length := by omega
  have hlong := le_strlen_iff hshort
  constructor
  · rintro ⟨fuel, emitted, hreturn, -⟩
    cases hn : strlenIn mem with
    | none =>
      cases fuel with
      | zero => simp [tcpSockWrite] at hreturn
      | succ fuel => simp [tcpSockWrite, hn, hpos] at hreturn
    | some n =>
      obtain ⟨hzero, hstrlen⟩ := strlenIn_eq_some_iff.mp hn
      refine ⟨hlong.mp ?_, hzero⟩
      by_contra hzero'
      rw [tcpSockWrite_stuck waits hn hint (by omega) le_rfl (by omega)] at hreturn
      cases hreturn
  · rintro ⟨hnonzero, hzero⟩
    have hle := hlong.mpr hnonzero
    have hn : strlenIn mem = some (strlen mem) := strlenIn_eq_some_iff.mpr ⟨hzero, rfl⟩
    obtain ⟨emitted, hreturn, hflatten, hsizes⟩ :=
      tcpSockWrite_sends waits 0 tsk [] hn hint (by omega) le_rfl hpos.le
        (show len - 0 < (len.toNat + 1 : ℕ) by omega)
    exact ⟨_, emitted, hreturn, by simpa [roundData] using hflatten, hsizes⟩

/-- The window is open whenever it is looked at. -/
def openWaits : Waits where
  after _ tsk := { tsk with sndWnd := UInt32.ofNat mss, inflight := 0 }
  opened _ _ := show ¬((UInt32.ofNat mss).toNat : ℤ) < toSizeT (mss * 0) by decide

theorem tcpSockWrite_sends_all_string : SendsAll [72, 105, 0] 2 openWaits allocTcpSock :=
  (tcpSockWrite_sends_all_iff openWaits allocTcpSock (by decide) (by decide) (by decide)).mpr
    ⟨by simp, by simp⟩

/-- A zero byte in the buffer: the call never returns. -/
theorem tcpSockWrite_zero_byte : ¬SendsAll [72, 0, 105, 0] 3 openWaits allocTcpSock ∧
    ∀ fuel, tcpSockWrite [72, 0, 105, 0] 3 openWaits fuel allocTcpSock 0 [] = .running := by
  have hstuck (fuel : ℕ) :
      tcpSockWrite [72, 0, 105, 0] 3 openWaits fuel allocTcpSock 0 [] = .running :=
    tcpSockWrite_stuck openWaits (n := 1) rfl (by decide) (by decide) le_rfl (by decide)
  refine ⟨?_, hstuck⟩
  rintro ⟨fuel, emitted, hreturn, -⟩
  rw [hstuck] at hreturn
  cases hreturn

end Loop

end NetworkLab.Tcp
