import NetworkLab.GuardedRuns
import NetworkLab.MospfWire

/-!
# The neighbour lists

Hello packets, the thread that checks the neighbours and the thread that sends LSUs, each step
under `mospf_lock`. The lists are counted by `num_nbr`, from which the size of an LSU is computed
in 32 bits.
-/
namespace NetworkLab.Mospf
open GuardedRuns

section Model

/-- `MOSPF_DEFAULT_HELLOINT`. -/
def mospfDefaultHelloint : ℤ := 5

/-- The fields of `iface_info_t` that the threads use. -/
structure NbrIface where
  index : ℤ
  ip : UInt32
  mask : UInt32
  helloint : ℤ
  numNbr : ℤ
  nbrList : List NbrEntry

/-- The router id in a hello packet. -/
def sridOf (packet : ℕ → UInt8) : UInt32 := ntohl (word32 packet (mhdrAt + 4))

/-- The interface as `handle_mospf_hello` uses it, which needs nothing else of the router. -/
def NbrIface.station (face : NbrIface) : Station :=
  ⟨0, 0, [], face.helloint, face.numNbr, face.nbrList⟩

/-- `handle_mospf_hello` on the interface of a packet. -/
def NbrIface.hello (face : NbrIface) (packet : ℕ → UInt8) : NbrIface :=
  { face with
    numNbr := (handleMospfHello face.station packet).value.numNbr
    nbrList := (handleMospfHello face.station packet).value.nbrList }

/-- `nbr->alive -= 3`. -/
def NbrEntry.age (nbr : NbrEntry) : NbrEntry := { nbr with alive := nbr.alive - 3 }

/-- The inner loop of `checking_nbr_thread`, with `num_nbr`. -/
def checkNbrs : List NbrEntry → ℤ → List NbrEntry × ℤ
  | [], n => ([], n)
  | nbr :: nbrs, n =>
    if nbr.age.alive ≤ 0 then checkNbrs nbrs (n - 1)
    else (nbr.age :: (checkNbrs nbrs n).1, (checkNbrs nbrs n).2)

/-- One interface in `checking_nbr_thread`. -/
def NbrIface.check (face : NbrIface) : NbrIface :=
  { face with
    nbrList := (checkNbrs face.nbrList face.numNbr).1
    numNbr := (checkNbrs face.nbrList face.numNbr).2 }

/-- The interface as the sender of LSUs reads it. -/
def NbrIface.iface (face : NbrIface) : Iface :=
  ⟨face.index, face.ip, face.mask, face.numNbr, face.nbrList.map (·.toMospfNbr)⟩

/-- What `sending_mospf_lsu_thread` computes, the number of bytes that it allocates, and the
entries that it writes there. -/
structure SentLsu where
  nadv : UInt32
  lenLsa : UInt32
  lsas : List MospfLsa

def sendLsu (ifaceList : List Iface) : SentLsu where
  nadv := countNadv ifaceList
  lenLsa := 12 * countNadv ifaceList
  lsas := ifaceList.flatMap ifaceLsas

/-- The buffer is filled, and not past its end. -/
def SentLsu.Exact (sent : SentLsu) : Prop :=
  sent.lsas.length = sent.nadv.toNat ∧ (sent.lsas.flatMap lsaBytes).length = sent.lenLsa.toNat

/-- An interface, and for each router how many checks there have been since its last hello. -/
structure HeardIface where
  face : NbrIface
  since : UInt32 → Option ℕ

/-- A hello packet on one interface. -/
def HeardIface.hello (h : HeardIface) (packet : ℕ → UInt8) : HeardIface where
  face := h.face.hello packet
  since := Function.update h.since (sridOf packet) (some 0)

def HeardIface.check (h : HeardIface) : HeardIface where
  face := h.face.check
  since := fun srid => (h.since srid).map (· + 1)

/-- The interfaces and the last LSU. -/
structure Neighbours where
  faces : List HeardIface
  sent : Option SentLsu

inductive NbrEvent
  | hello (i : ℕ) (packet : ℕ → UInt8)
  | check
  | lsu

def Neighbours.ifaceList (s : Neighbours) : List Iface := s.faces.map fun h => h.face.iface

def Neighbours.step (s : Neighbours) : NbrEvent → Option Neighbours
  | .hello i packet =>
    if i < s.faces.length then some { s with faces := s.faces.modify i fun h => h.hello packet }
    else none
  | .check => some { s with faces := s.faces.map HeardIface.check }
  | .lsu => some { s with sent := some (sendLsu s.ifaceList) }

/-- After `mospf_init`. -/
def Neighbours.Initial (s : Neighbours) : Prop :=
  (∀ h ∈ s.faces, h.face.helloint = mospfDefaultHelloint ∧ h.face.numNbr = 0 ∧
    h.face.nbrList = [] ∧ ∀ srid, h.since srid = none) ∧ s.sent = none

/-- No counter overflows: `num_nbr` at the next neighbour, and the size of the LSAs in bytes. -/
def noOverflow (s : Neighbours) : NbrEvent → Prop
  | .hello i packet => ∀ h ∈ s.faces[i]?, sridOf packet ∉ h.face.nbrList.map (·.nbrId) →
    h.face.nbrList.length + 1 < 2 ^ 31
  | .check => True
  | .lsu => 12 * (advertisements s.ifaceList).length < 2 ^ 32

end Model

section Lists

variable {nbr : NbrEntry} {nbrs : List NbrEntry} {face : NbrIface}

theorem checkNbrs_fst (nbrs : List NbrEntry) (n : ℤ) :
    (checkNbrs nbrs n).1 = (nbrs.map NbrEntry.age).filter fun nbr => !decide (nbr.alive ≤ 0) := by
  induction nbrs generalizing n with
  | nil => rfl
  | cons nbr nbrs ih =>
    rw [checkNbrs, List.map_cons, List.filter_cons]
    by_cases hdead : nbr.age.alive ≤ 0
    · simp only [hdead, if_true, ih, decide_true, Bool.not_true, Bool.false_eq_true, if_false]
    · simp only [hdead, if_false, ih, decide_false, Bool.not_false, if_true]

/-- Each neighbour that is dropped is counted. -/
theorem checkNbrs_snd (nbrs : List NbrEntry) (n : ℤ) :
    (checkNbrs nbrs n).2 = n - nbrs.length + (checkNbrs nbrs n).1.length := by
  induction nbrs generalizing n with
  | nil => simp [checkNbrs]
  | cons nbr nbrs ih =>
    by_cases hdead : nbr.age.alive ≤ 0
    · simp only [checkNbrs, hdead, if_true, ih, List.length_cons, Nat.cast_succ]
      omega
    · simp only [checkNbrs, hdead, if_false, ih, List.length_cons, Nat.cast_succ]
      omega

/-- A hello sets the countdown of its router, which is added where it is not there. -/
theorem hello_cases (face : NbrIface) (packet : ℕ → UInt8) :
    (∃ i, ∃ h : i < face.nbrList.length, face.nbrList[i].nbrId = sridOf packet ∧
      (face.hello packet).numNbr = face.numNbr ∧
      (face.hello packet).nbrList = face.nbrList.modify i fun nbr =>
        { nbr with alive := UInt8.ofInt (3 * face.helloint) }) ∨
    sridOf packet ∉ face.nbrList.map (·.nbrId) ∧
      (face.hello packet).numNbr = face.numNbr + 1 ∧
      ∃ nbr : NbrEntry, (face.hello packet).nbrList = face.nbrList ++ [nbr] ∧
        nbr.nbrId = sridOf packet ∧ nbr.alive = UInt8.ofInt (3 * face.helloint) := by
  cases hfind : face.nbrList.findIdx? fun nbr => decide (nbr.nbrId = sridOf packet) with
  | none =>
    have hvalue : (handleMospfHello face.station packet).value = { face.station with
        nbrList := face.nbrList ++ [⟨⟨sridOf packet,
          ntohl (word32 packet (etherHdrSize + 12)), (load32 packet bodyAt).value⟩,
          UInt8.ofInt (3 * face.helloint)⟩]
        numNbr := face.numNbr + 1 } := by
      rw [handleMospfHello, value_bind]
      exact hfind ▸ rfl
    rw [NbrIface.hello, hvalue]
    rw [List.findIdx?_eq_none_iff] at hfind
    refine .inr ⟨fun hin => ?_, rfl, _, rfl, rfl, rfl⟩
    obtain ⟨nbr, hnbr, hid⟩ := List.mem_map.mp hin
    exact of_decide_eq_false (hfind nbr hnbr) hid
  | some i =>
    have hvalue : (handleMospfHello face.station packet).value = { face.station with
        nbrList := face.nbrList.modify i fun nbr =>
          { nbr with alive := UInt8.ofInt (3 * face.helloint) } } := by
      rw [handleMospfHello, value_bind]
      exact hfind ▸ rfl
    rw [NbrIface.hello, hvalue]
    obtain ⟨hlt, hid, -⟩ := List.findIdx?_eq_some_iff_getElem.mp hfind
    exact .inl ⟨i, hlt, of_decide_eq_true hid, rfl, rfl⟩

end Lists

section Interfaces

variable {h : HeardIface} {packet : ℕ → UInt8}

/-- The list of an interface has the routers with fewer than five checks since their last
hello, each once, and `alive` goes down by three from fifteen. -/
structure HeardIface.Ok (h : HeardIface) : Prop where
  helloint : h.face.helloint = mospfDefaultHelloint
  num : h.face.numNbr = h.face.nbrList.length
  nodup : (h.face.nbrList.map (·.nbrId)).Nodup
  alive : ∀ nbr ∈ h.face.nbrList, ∃ k < 5, h.since nbr.nbrId = some k ∧
    nbr.alive.toNat = 15 - 3 * k
  heard : ∀ srid, ∀ k < 5, h.since srid = some k → srid ∈ h.face.nbrList.map (·.nbrId)

theorem map_nbrId_modify (nbrs : List NbrEntry) (i : ℕ) (alive : UInt8) :
    (nbrs.modify i fun nbr => { nbr with alive := alive }).map (·.nbrId) =
      nbrs.map (·.nbrId) := by
  apply List.ext_getElem?
  intro j
  simp only [List.getElem?_map, List.getElem?_modify]
  split_ifs
  · simp [Function.comp_def]
  · simp

theorem toNat_helloAlive (h : HeardIface) (hhello : h.face.helloint = mospfDefaultHelloint) :
    (UInt8.ofInt (3 * h.face.helloint)).toNat = 15 := by
  rw [hhello]
  rfl

theorem HeardIface.Ok.hello (hok : h.Ok) (packet : ℕ → UInt8) : (h.hello packet).Ok := by
  have hfifteen := toNat_helloAlive h hok.helloint
  rcases hello_cases h.face packet with
    ⟨i, hi, hid, hnum, hlist⟩ | ⟨hnew, hnum, nbr, hlist, hid, halive⟩
  · have hids : (h.hello packet).face.nbrList.map (·.nbrId) = h.face.nbrList.map (·.nbrId) := by
      show (h.face.hello packet).nbrList.map (·.nbrId) = _
      rw [hlist, map_nbrId_modify]
    refine ⟨hok.helloint, ?_, by rw [hids]; exact hok.nodup, fun nbr hnbr => ?_,
      fun srid k hk hsince => ?_⟩
    · show (h.face.hello packet).numNbr = ((h.face.hello packet).nbrList.length : ℤ)
      rw [hnum, hlist, List.length_modify]
      exact hok.num
    · have hin : nbr ∈ (h.face.hello packet).nbrList := hnbr
      rw [hlist] at hin
      obtain ⟨j, hj⟩ := List.getElem?_of_mem hin
      rw [List.getElem?_modify] at hj
      simp only [HeardIface.hello]
      by_cases hij : i = j
      · subst hij
        simp only [if_true, List.getElem?_eq_getElem hi, Option.map_eq_map, Option.map_some,
          Option.some.injEq] at hj
        subst hj
        exact ⟨0, by omega, by simp [hid], hfifteen⟩
      · simp only [hij, if_false, Option.map_eq_map, Option.map_id'] at hj
        have hne : nbr.nbrId ≠ sridOf packet := by
          intro heq
          refine hij ((List.getElem?_inj (by simpa using hi) hok.nodup).mp ?_)
          simp [hj, List.getElem?_eq_getElem hi, hid, heq]
        rw [Function.update_of_ne hne]
        exact hok.alive nbr (List.mem_of_getElem? hj)
    · rw [hids]
      by_cases heq : srid = sridOf packet
      · rw [heq, ← hid]
        exact List.mem_map_of_mem (List.getElem_mem hi)
      · simp only [HeardIface.hello, Function.update_of_ne heq] at hsince
        exact hok.heard srid k hk hsince
  · have hids : (h.hello packet).face.nbrList.map (·.nbrId) =
        h.face.nbrList.map (·.nbrId) ++ [sridOf packet] := by
      show (h.face.hello packet).nbrList.map (·.nbrId) = _
      rw [hlist, List.map_append, List.map_singleton, hid]
    refine ⟨hok.helloint, ?_, ?_, fun other hother => ?_, fun srid k hk hsince => ?_⟩
    · show (h.face.hello packet).numNbr = ((h.face.hello packet).nbrList.length : ℤ)
      rw [hnum, hlist, List.length_append, List.length_singleton, hok.num]
      rfl
    · rw [hids]
      exact List.Nodup.append hok.nodup (List.nodup_singleton _) (by simpa using hnew)
    · have hin : other ∈ (h.face.hello packet).nbrList := hother
      rw [hlist] at hin
      simp only [HeardIface.hello]
      rcases List.mem_append.mp hin with hold | hlast
      · have hne : other.nbrId ≠ sridOf packet := fun heq =>
          hnew (heq ▸ List.mem_map_of_mem hold)
        rw [Function.update_of_ne hne]
        exact hok.alive other hold
      · rw [List.mem_singleton.mp hlast, hid, halive]
        exact ⟨0, by omega, by simp, hfifteen⟩
    · rw [hids]
      by_cases heq : srid = sridOf packet
      · simp [heq]
      · simp only [HeardIface.hello, Function.update_of_ne heq] at hsince
        exact List.mem_append_left _ (hok.heard srid k hk hsince)

/-- The countdown of a neighbour goes from fifteen to zero in five checks, and never below. -/
theorem toNat_age {nbr : NbrEntry} {k : ℕ} (hk : k < 5) (halive : nbr.alive.toNat = 15 - 3 * k) :
    nbr.age.alive.toNat = 15 - 3 * (k + 1) := by
  have hle : (3 : UInt8) ≤ nbr.alive := by
    rw [UInt8.le_iff_toNat_le]
    show 3 ≤ nbr.alive.toNat
    omega
  show (nbr.alive - 3).toNat = _
  rw [UInt8.toNat_sub_of_le _ _ hle, halive]
  show 15 - 3 * k - 3 = _
  omega

theorem age_le_zero_iff {nbr : NbrEntry} {k : ℕ} (hk : k < 5)
    (halive : nbr.alive.toNat = 15 - 3 * k) : nbr.age.alive ≤ 0 ↔ k = 4 := by
  rw [UInt8.le_iff_toNat_le, toNat_age hk halive]
  show 15 - 3 * (k + 1) ≤ 0 ↔ k = 4
  omega

theorem HeardIface.Ok.check (hok : h.Ok) : h.check.Ok := by
  have hlist : h.check.face.nbrList =
      (h.face.nbrList.map NbrEntry.age).filter fun nbr => !decide (nbr.alive ≤ 0) :=
    checkNbrs_fst _ _
  have hmem {nbr : NbrEntry} : nbr ∈ h.check.face.nbrList ↔
      ∃ old ∈ h.face.nbrList, old.age = nbr ∧ ¬nbr.alive ≤ 0 := by
    rw [hlist, List.mem_filter, List.mem_map]
    simp only [Bool.not_eq_true', decide_eq_false_iff_not, ← exists_and_right, and_assoc]
  refine ⟨hok.helloint, ?_, ?_, fun nbr hnbr => ?_, fun srid k hk hsince => ?_⟩
  · have hcount := checkNbrs_snd h.face.nbrList h.face.numNbr
    rw [hok.num] at hcount
    show (checkNbrs h.face.nbrList h.face.numNbr).2 =
      ((checkNbrs h.face.nbrList h.face.numNbr).1.length : ℤ)
    rw [hok.num, hcount]
    omega
  · rw [hlist]
    refine (List.filter_sublist.map _).nodup ?_
    have hids : (h.face.nbrList.map NbrEntry.age).map (·.nbrId) =
        h.face.nbrList.map (·.nbrId) := by simp [NbrEntry.age, Function.comp_def]
    rw [hids]
    exact hok.nodup
  · obtain ⟨old, hold, rfl, hlive⟩ := hmem.mp hnbr
    obtain ⟨k, hk, hsince, halive⟩ := hok.alive old hold
    have hne : k ≠ 4 := fun heq => hlive ((age_le_zero_iff hk halive).mpr heq)
    refine ⟨k + 1, by omega, ?_, toNat_age hk halive⟩
    show (h.since old.nbrId).map (· + 1) = some (k + 1)
    rw [hsince, Option.map_some]
  · obtain ⟨k, hbefore, rfl⟩ := Option.map_eq_some_iff.mp hsince
    obtain ⟨old, hold, rfl⟩ := List.mem_map.mp (hok.heard srid k (by omega) hbefore)
    obtain ⟨k', hk', hsince', halive⟩ := hok.alive old hold
    obtain rfl : k = k' := Option.some.inj (hbefore.symm.trans hsince')
    have hlive : ¬old.age.alive ≤ 0 := by
      rw [age_le_zero_iff hk' halive]
      omega
    exact List.mem_map.mpr ⟨old.age, hmem.mpr ⟨old, hold, rfl, hlive⟩, rfl⟩

end Interfaces

section Runs

variable {s t : Neighbours} {e : NbrEvent}

theorem countNadv_of_ok (hfaces : ∀ h ∈ s.faces, h.Ok) :
    countNadv s.ifaceList = UInt32.ofNat (advertisements s.ifaceList).length ∧
      (s.ifaceList.flatMap ifaceLsas) = advertisements s.ifaceList := by
  have hnum : ∀ iface ∈ s.ifaceList, iface.numNbr = iface.nbrList.length := by
    intro iface hiface
    obtain ⟨h, hin, rfl⟩ := List.mem_map.mp hiface
    simp [NbrIface.iface, (hfaces h hin).num]
  exact ⟨countNadv_eq hnum, flatMap_ifaceLsas hnum⟩

/-- Without overflow the buffer that is allocated is the one that is filled. -/
theorem exact_sendLsu (hfaces : ∀ h ∈ s.faces, h.Ok)
    (hsmall : 12 * (advertisements s.ifaceList).length < 2 ^ 32) :
    (sendLsu s.ifaceList).Exact := by
  obtain ⟨hcount, hlsas⟩ := countNadv_of_ok hfaces
  rw [SentLsu.Exact, length_flatMap_lsaBytes]
  simp only [sendLsu, hcount, hlsas, UInt32.toNat_mul, UInt32.toNat_ofNat']
  constructor
  · omega
  · show _ = 12 * _ % _
    omega

/-- What holds in every state of a run without overflow. -/
structure Neighbours.Good (s : Neighbours) : Prop where
  faces : ∀ h ∈ s.faces, h.Ok
  sent : ∀ sent ∈ s.sent, sent.Exact

theorem Neighbours.Initial.good (h : s.Initial) : s.Good := by
  obtain ⟨hfaces, hsent⟩ := h
  constructor
  · intro h hh
    obtain ⟨hhello, hnum, hlist, hsince⟩ := hfaces h hh
    exact ⟨hhello, by simp [hnum, hlist], by simp [hlist], by simp [hlist], by simp [hsince]⟩
  · simp [hsent]

theorem Neighbours.Good.step (h : s.Good) (hok : noOverflow s e) (hstep : s.step e = some t) :
    t.Good := by
  cases e with
  | hello i packet =>
    rw [Neighbours.step] at hstep
    split_ifs at hstep
    obtain rfl := Option.some.inj hstep
    refine ⟨fun face hface => ?_, h.sent⟩
    obtain ⟨j, hj⟩ := List.getElem?_of_mem hface
    rw [List.getElem?_modify] at hj
    split_ifs at hj
    · obtain ⟨old, hold, rfl⟩ := Option.map_eq_some_iff.mp hj
      exact (h.faces old (List.mem_of_getElem? hold)).hello packet
    · rw [Option.map_eq_map, Option.map_id'] at hj
      exact h.faces face (List.mem_of_getElem? hj)
  | check =>
    obtain rfl := Option.some.inj hstep
    refine ⟨fun face hface => ?_, h.sent⟩
    obtain ⟨old, hold, rfl⟩ := List.mem_map.mp hface
    exact (h.faces old hold).check
  | lsu =>
    obtain rfl := Option.some.inj hstep
    refine ⟨h.faces, fun sent hsent => ?_⟩
    obtain rfl := Option.some.inj hsent
    exact exact_sendLsu h.faces hok

/-- In every run without overflow the lists and their counters agree, the neighbours are those that
have been heard in the last five checks, and every LSU fills its buffer. -/
theorem neighbours_consistent (hreach : Reaches Neighbours.step noOverflow Neighbours.Initial s) :
    (∀ h ∈ s.faces, h.face.numNbr = h.face.nbrList.length ∧
      (h.face.nbrList.map (·.nbrId)).Nodup ∧
      (∀ nbr ∈ h.face.nbrList, 3 ∣ nbr.alive.toNat ∧ 0 < nbr.alive.toNat ∧ nbr.alive.toNat ≤ 15) ∧
      ∀ srid, srid ∈ h.face.nbrList.map (·.nbrId) ↔ ∃ k < 5, h.since srid = some k) ∧
    ∀ sent ∈ s.sent, sent.Exact := by
  have hgood : s.Good :=
    hreach.invariant Neighbours.Good (fun _ => Neighbours.Initial.good) fun _ _ _ =>
      Neighbours.Good.step
  refine ⟨fun h hh => ?_, hgood.sent⟩
  have hok := hgood.faces h hh
  refine ⟨hok.num, hok.nodup, fun nbr hnbr => ?_, fun srid => ⟨fun hin => ?_, ?_⟩⟩
  · obtain ⟨k, hk, -, halive⟩ := hok.alive nbr hnbr
    omega
  · obtain ⟨nbr, hnbr, rfl⟩ := List.mem_map.mp hin
    obtain ⟨k, hk, hsince, -⟩ := hok.alive nbr hnbr
    exact ⟨k, hk, hsince⟩
  · rintro ⟨k, hk, hsince⟩
    exact hok.heard srid k hk hsince

/-- One interface and nothing heard. -/
def quiet : Neighbours :=
  ⟨[⟨⟨0, 0x0a000101, 0xffffff00, 5, 0, []⟩, fun _ => none⟩], none⟩

theorem initial_quiet : quiet.Initial := by
  refine ⟨fun h hh => ?_, rfl⟩
  rw [List.mem_singleton.mp hh]
  exact ⟨rfl, rfl, rfl, fun _ => rfl⟩

/-- A hello packet of this router. -/
def helloFrom (srid : UInt32) : ℕ → UInt8 := writeBytes (fun _ => 0) (mhdrAt + 4) (wire32 srid)

theorem sridOf_helloFrom (srid : UInt32) : sridOf (helloFrom srid) = srid :=
  ntohl_of_hasBytes (hasBytes_writeBytes _ _ _)

instance (s : Neighbours) : ∀ e, Decidable (noOverflow s e)
  | .hello i _ => inferInstanceAs (Decidable (∀ h ∈ s.faces[i]?, _))
  | .check => isTrue trivial
  | .lsu => inferInstanceAs (Decidable (_ < _))

/-- A neighbour is heard, four checks pass, and an LSU is sent. -/
theorem neighbours_consistent_one : ∃ s : Neighbours,
    (s.faces.map fun h => h.face.nbrList.map fun nbr => (nbr.nbrId, nbr.alive)) = [[(2, 3)]] ∧
      (∀ h ∈ s.faces, h.face.numNbr = 1) ∧ ∃ sent ∈ s.sent, sent.nadv = 1 ∧ sent.Exact := by
  obtain ⟨s, hreach, hlist, hnadv⟩ : ∃ s, Reaches Neighbours.step noOverflow Neighbours.Initial s ∧
      (s.faces.map fun h => h.face.nbrList.map fun nbr => (nbr.nbrId, nbr.alive)) = [[(2, 3)]] ∧
        ∃ sent ∈ s.sent, sent.nadv = 1 :=
    exists_of_exec initial_quiet
      (.hello 0 (helloFrom 2) :: List.replicate 4 .check ++ [.lsu]) _ (by decide +kernel)
  obtain ⟨hfaces, hexact⟩ := neighbours_consistent hreach
  obtain ⟨sent, hsent, hone⟩ := hnadv
  refine ⟨s, hlist, fun h hh => ?_, sent, hsent, hone, hexact sent hsent⟩
  have hmem := List.mem_map_of_mem (f := fun h : HeardIface =>
    h.face.nbrList.map fun nbr => (nbr.nbrId, nbr.alive)) hh
  rw [hlist, List.mem_singleton] at hmem
  have hlen := congrArg List.length hmem
  rw [List.length_map, List.length_singleton] at hlen
  rw [(hfaces h hh).1, hlen]
  rfl

/-- As many routers are heard as there are, up to the bound of `num_nbr`. -/
theorem exists_heard (n : ℕ) (hn : n < 2 ^ 31) : ∃ s h,
    Reaches Neighbours.step noOverflow Neighbours.Initial s ∧ s.faces = [h] ∧
      h.face.nbrList.map (·.nbrId) = (List.range n).map UInt32.ofNat := by
  induction n with
  | zero => exact ⟨quiet, _, .start initial_quiet, rfl, rfl⟩
  | succ n ih =>
    obtain ⟨s, h, hreach, hfaces, hids⟩ := ih (by omega)
    have hlen : h.face.nbrList.length = n := by simpa using congrArg List.length hids
    have hnew : UInt32.ofNat n ∉ h.face.nbrList.map (·.nbrId) := by
      rw [hids, List.mem_map]
      rintro ⟨k, hk, heq⟩
      have hkn := List.mem_range.mp hk
      have hnat := congrArg UInt32.toNat heq
      rw [UInt32.toNat_ofNat', UInt32.toNat_ofNat'] at hnat
      omega
    refine ⟨{ s with faces := [h.hello (helloFrom (UInt32.ofNat n))] },
      h.hello (helloFrom (UInt32.ofNat n)), hreach.next (e := .hello 0 (helloFrom (UInt32.ofNat n)))
        ?_ ?_, rfl, ?_⟩
    · simp only [noOverflow, hfaces, List.getElem?_cons_zero, Option.mem_def, Option.some.injEq,
        forall_eq', hlen]
      exact fun _ => hn
    · simp [Neighbours.step, hfaces, List.modify]
    · rw [List.range_succ, List.map_append, ← hids]
      rcases hello_cases h.face (helloFrom (UInt32.ofNat n)) with
        ⟨i, hi, hid, -⟩ | ⟨-, -, nbr, hlist, hid, -⟩
      · rw [sridOf_helloFrom] at hid
        exact absurd (hid ▸ List.mem_map_of_mem (List.getElem_mem hi)) hnew
      · show (h.face.hello (helloFrom (UInt32.ofNat n))).nbrList.map (·.nbrId) = _
        rw [hlist, List.map_append, List.map_singleton, hid, sridOf_helloFrom]
        rfl

/-- With 357913942 neighbours the size of the LSAs is eight bytes. -/
theorem sendLsu_overflows : ∃ s sent, Reaches Neighbours.step anyStep Neighbours.Initial s ∧
    s.sent = some sent ∧ sent.lsas.length = 357913942 ∧ sent.lenLsa = 8 ∧ ¬sent.Exact := by
  obtain ⟨s, h, hreach, hfaces, hids⟩ := exists_heard 357913942 (by norm_num)
  have hgood : s.Good :=
    hreach.invariant Neighbours.Good (fun _ => Neighbours.Initial.good) fun _ _ _ =>
      Neighbours.Good.step
  obtain ⟨hcount, hlsas⟩ := countNadv_of_ok hgood.faces
  have hlen : h.face.nbrList.length = 357913942 := by simpa using congrArg List.length hids
  have hadverts : (advertisements s.ifaceList).length = 357913942 := by
    simp only [Neighbours.ifaceList, hfaces, List.map_singleton, advertisements,
      List.flatMap_singleton]
    cases hlist : h.face.nbrList with
    | nil => simp [hlist] at hlen
    | cons nbr nbrs =>
      rw [hlist] at hlen
      simpa [NbrIface.iface, hlist] using hlen
  have hsize : (sendLsu s.ifaceList).lenLsa = 8 := by
    show 12 * countNadv s.ifaceList = 8
    rw [hcount, hadverts]
    decide
  have hwritten : (sendLsu s.ifaceList).lsas.length = 357913942 := by
    show (s.ifaceList.flatMap ifaceLsas).length = 357913942
    rw [hlsas, hadverts]
  refine ⟨{ s with sent := some (sendLsu s.ifaceList) }, sendLsu s.ifaceList, ?_, rfl, hwritten,
    hsize, fun hexact => ?_⟩
  · exact (hreach.weaken fun _ _ _ => trivial).next (e := .lsu) trivial rfl
  · have hbytes := hexact.2
    rw [length_flatMap_lsaBytes, hwritten, hsize] at hbytes
    exact absurd hbytes (by decide)

end Runs

end NetworkLab.Mospf
