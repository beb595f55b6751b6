import Mathlib.Data.List.TakeWhile
import NetworkLab.LinkedLists
import NetworkLab.TcpStream

/-!
# The links of the out-of-order list

`write_ofo_buffer` with the links it sets. The list of the socket is described in
`TcpProcess` by what a traversal visits; here that description is what the links
represent. The search for the place of a segment begins at a copy of the head on the
stack, so a segment before the first one is linked behind the copy: the head does not
lead to it.
-/
namespace NetworkLab.Tcp
open LinkedLists

/-- The head, its copy `head_ext`, and the entries in the order of their allocation. -/
inductive OfoNode
  | head
  | stack
  | entry (n : ℕ)
  deriving DecidableEq

structure OfoHeap where
  links : Links OfoNode
  entries : List OfoBuffer

/-- `init_list_head`. -/
def OfoHeap.init : OfoHeap where
  links :=
    { next := fun x => if x = .head then some .head else none
      prev := fun x => if x = .head then some .head else none }
  entries := []

def OfoHeap.ofo (s : OfoHeap) : OfoNode → Option OfoBuffer
  | .head => none
  | .stack => none
  | .entry n => s.entries[n]?

/-- Where the loop over the list stops. -/
inductive Place
  | stored
  | before (last pos : OfoNode)
  | atEnd

/-- The loop of `write_ofo_buffer`. -/
def OfoHeap.findPlace (s : OfoHeap) (seq : UInt32) : ℕ → OfoNode → OfoNode → Option Place
  | 0, _, _ => none
  | fuel + 1, last, pos =>
    if pos = .head then some .atEnd
    else
      (s.ofo pos).bind fun ofo =>
        if seq > ofo.seq then (s.links.next pos).bind (s.findPlace seq fuel pos)
        else if seq = ofo.seq then some .stored
        else some (.before last pos)

/-- The new entry and the copy of the head. -/
def OfoHeap.allocate (s : OfoHeap) (buf : OfoBuffer) : OfoHeap where
  links := s.links.copy .stack .head
  entries := s.entries ++ [buf]

def OfoHeap.link (s : OfoHeap) (new : OfoNode) : Place → Option OfoHeap
  | .stored => some s
  | .before last pos => some { s with links := s.links.insert new last pos }
  | .atEnd => (s.links.addTail new .head).map fun links => { s with links := links }

/-- `write_ofo_buffer`; `none` where its behaviour is not defined: copying a payload of
negative length, or a loop that does not come back to the head. -/
def OfoHeap.writeOfoBuffer (s : OfoHeap) (cb : TcpCb) : Option OfoHeap :=
  if cb.plLen < 0 then none
  else
    let s' := s.allocate cb.ofoBuffer
    (s'.links.next .head).bind fun pos =>
      (s'.findPlace cb.seq s'.entries.length .stack pos).bind
        (s'.link (.entry s.entries.length))

def OfoHeap.writeOfoBuffers (s : OfoHeap) (cbs : List TcpCb) : Option OfoHeap :=
  cbs.foldlM OfoHeap.writeOfoBuffer s

section Search

/-- The nodes that a traversal visits, and the head it ends at. -/
def ofoPath (nodes : List ℕ) : List OfoNode := nodes.map .entry ++ [.head]

@[simp] theorem ofoPath_nil : ofoPath [] = [.head] := rfl

@[simp] theorem ofoPath_cons (n : ℕ) (nodes : List ℕ) :
    ofoPath (n :: nodes) = .entry n :: ofoPath nodes := rfl

theorem ofoPath_append (nodes₁ nodes₂ : List ℕ) :
    ofoPath (nodes₁ ++ nodes₂) = nodes₁.map .entry ++ ofoPath nodes₂ := by
  simp [ofoPath]

theorem entry_mem_ofoPath {n : ℕ} {nodes : List ℕ} : .entry n ∈ ofoPath nodes ↔ n ∈ nodes := by
  simp [ofoPath]

theorem stack_not_mem_ofoPath (nodes : List ℕ) : .stack ∉ ofoPath nodes := by
  simp [ofoPath]

theorem nodup_ofoPath {nodes : List ℕ} (h : nodes.Nodup) : (ofoPath nodes).Nodup := by
  have hentries : (nodes.map OfoNode.entry).Nodup := h.map fun a b hab => by simpa using hab
  simp [ofoPath, List.nodup_append, hentries]

/-- What the entries at the places hold. -/
def Holding (s : OfoHeap) (nodes : List ℕ) (bufs : List OfoBuffer) : Prop :=
  nodes.map (fun n => s.entries[n]?) = bufs.map some

variable {s : OfoHeap} {seq : UInt32}

theorem holding_cons {n : ℕ} {nodes : List ℕ} {buf : OfoBuffer} {bufs : List OfoBuffer} :
    Holding s (n :: nodes) (buf :: bufs) ↔ s.entries[n]? = some buf ∧ Holding s nodes bufs := by
  simp [Holding]

/-- The loop passes the entries that begin earlier. -/
theorem findPlace_skip {nodes₁ nodes₂ : List ℕ} {bufs : List OfoBuffer} {fuel : ℕ}
    {last pos last' pos' : OfoNode} (hholding : Holding s nodes₁ bufs)
    (hearlier : ∀ buf ∈ bufs, buf.seq < seq)
    (hpath : (ofoPath (nodes₁ ++ nodes₂)).IsChain (Joined s.links))
    (hpos : pos ∈ (ofoPath (nodes₁ ++ nodes₂)).head?)
    (hlast' : last' ∈ (last :: nodes₁.map .entry).getLast?)
    (hpos' : pos' ∈ (ofoPath nodes₂).head?) :
    s.findPlace seq (fuel + nodes₁.length) last pos = s.findPlace seq fuel last' pos' := by
  induction nodes₁ generalizing bufs last pos with
  | nil =>
    obtain rfl : last = last' := by simpa using hlast'
    rw [Option.mem_unique hpos hpos']
    rfl
  | cons n nodes₁ ih =>
    obtain rfl : OfoNode.entry n = pos := by simpa using hpos
    obtain ⟨buf, bufs, rfl⟩ : ∃ buf rest, bufs = buf :: rest := by
      cases bufs with
      | nil => simp [Holding] at hholding
      | cons buf rest => exact ⟨buf, rest, rfl⟩
    obtain ⟨hbuf, hrest⟩ := holding_cons.mp hholding
    obtain ⟨hjoined, hpath⟩ := List.isChain_cons.mp hpath
    have hnext := List.head?_eq_some_head (l := ofoPath (nodes₁ ++ nodes₂)) (by simp [ofoPath])
    have hlast : last' ∈ (OfoNode.entry n :: nodes₁.map .entry).getLast? := by
      simpa using hlast'
    have hskip := ih hrest (fun b hb => hearlier b (List.mem_cons_of_mem _ hb)) hpath hnext hlast
    have hseq := hearlier buf List.mem_cons_self
    rw [List.length_cons, ← add_assoc, ← hskip]
    simp [OfoHeap.findPlace, OfoHeap.ofo, hbuf, hseq, (hjoined _ hnext).1]

end Search

section Representation

/-- What the first entry is linked back to: the head, or the entry that was inserted
before it last. -/
def LinkedBack (s : OfoHeap) : List OfoBuffer → Option OfoNode → Prop
  | [], x => x = some .head
  | buf :: _, x => ∃ n, s.entries[n]? = some buf ∧ x = some (.entry n)

/-- The entries of the list are at these places. -/
structure Represents (s : OfoHeap) (nodes : List ℕ) (l : OfoList) : Prop where
  nodup : nodes.Nodup
  holding : Holding s nodes l.entries
  first : s.links.next .head = (ofoPath nodes).head?
  path : (ofoPath nodes).IsChain (Joined s.links)
  hidden_nil : l.entries = [] → l.hidden = []
  back : ∀ x ∈ (ofoPath nodes).head?, LinkedBack s l.hidden (s.links.prev x)

variable {s : OfoHeap} {nodes : List ℕ} {l : OfoList}

theorem represents_init : Represents OfoHeap.init [] ⟨[], [], false⟩ := by
  constructor <;> simp [Holding, OfoHeap.init, LinkedBack]

theorem Holding.lt {bufs : List OfoBuffer} (h : Holding s nodes bufs) {n : ℕ} (hn : n ∈ nodes) :
    n < s.entries.length := by
  have hmem : s.entries[n]? ∈ bufs.map some := by
    rw [← h]
    exact List.mem_map_of_mem hn
  obtain ⟨buf, -, hbuf⟩ := List.mem_map.mp hmem
  exact (List.getElem?_eq_some_iff.mp hbuf.symm).1

theorem Holding.length_eq {bufs : List OfoBuffer} (h : Holding s nodes bufs) :
    nodes.length = bufs.length := by
  simpa using congrArg List.length h

theorem Represents.length_le (h : Represents s nodes l) : nodes.length ≤ s.entries.length := by
  have hsub : nodes ⊆ List.range s.entries.length := fun n hn =>
    List.mem_range.mpr (h.holding.lt hn)
  simpa using (h.nodup.subperm hsub).length_le

theorem LinkedBack.allocate {hidden : List OfoBuffer} {x : Option OfoNode} (buf : OfoBuffer)
    (h : LinkedBack s hidden x) : LinkedBack (s.allocate buf) hidden x := by
  cases hidden with
  | nil => exact h
  | cons first hidden =>
    obtain ⟨n, hn, rfl⟩ := h
    refine ⟨n, ?_, rfl⟩
    rw [OfoHeap.allocate, List.getElem?_append_left (List.getElem?_eq_some_iff.mp hn).1, hn]

/-- Only the links of the copy change, and the new entry is in no list yet. -/
theorem Represents.allocate (h : Represents s nodes l) (buf : OfoBuffer) :
    Represents (s.allocate buf) nodes l := by
  have hagree : Agree s.links (s.allocate buf).links (ofoPath nodes) := by
    intro y hy
    have hne : y ≠ .stack := fun heq => stack_not_mem_ofoPath nodes (heq ▸ hy)
    simp [OfoHeap.allocate, Links.copy, hne]
  constructor
  case nodup => exact h.nodup
  case holding =>
    rw [Holding, ← h.holding]
    apply List.map_congr_left
    intro n hn
    exact List.getElem?_append_left (h.holding.lt hn)
  case first =>
    rw [← h.first]
    simp [OfoHeap.allocate, Links.copy]
  case path => exact path_congr h.path hagree
  case hidden_nil => exact h.hidden_nil
  case back =>
    intro x hx
    rw [(hagree x (List.mem_of_mem_head? hx)).2]
    exact (h.back x hx).allocate buf

/-- A new entry behind another one. -/
theorem Represents.link {nodes₁ nodes₂ : List ℕ} {bufs₁ bufs₂ : List OfoBuffer} {n : ℕ}
    {buf : OfoBuffer} {last pos : OfoNode} (h : Represents s (nodes₁ ++ nodes₂) l)
    (hentries : l.entries = bufs₁ ++ bufs₂) (hlength : nodes₁.length = bufs₁.length)
    (hn : s.entries[n]? = some buf) (hnew : n ∉ nodes₁ ++ nodes₂)
    (hlast : last ∈ (nodes₁.map OfoNode.entry).getLast?) (hpos : pos ∈ (ofoPath nodes₂).head?) :
    Represents { s with links := s.links.insert (.entry n) last pos } (nodes₁ ++ n :: nodes₂)
      { l with entries := bufs₁ ++ buf :: bufs₂ } := by
  have hpath := h.path
  have hnodup := nodup_ofoPath h.nodup
  have hmem : .entry n ∉ ofoPath (nodes₁ ++ nodes₂) := mt entry_mem_ofoPath.mp hnew
  rw [ofoPath_append] at hpath hnodup hmem
  have hne : nodes₁ ≠ [] := by
    rintro rfl
    simp at hlast
  have hfirst (nodes : List ℕ) : (ofoPath (nodes₁ ++ nodes)).head? = nodes₁.head?.map .entry := by
    rw [ofoPath_append, List.head?_append_of_ne_nil _ (by simpa using hne), List.head?_map]
  constructor
  case nodup =>
    rw [List.perm_middle.nodup_iff]
    exact List.nodup_cons.mpr ⟨hnew, h.nodup⟩
  case holding =>
    have hholding := h.holding
    rw [Holding, hentries, List.map_append, List.map_append] at hholding
    obtain ⟨hbefore, hafter⟩ := List.append_inj hholding (by simpa using hlength)
    simp [Holding, hbefore, hafter, hn]
  case first =>
    have hstay : OfoNode.head ≠ last := by
      rintro rfl
      simpa using List.mem_of_getLast? hlast
    have hheap := h.first
    rw [hfirst] at hheap ⊢
    simp [Links.insert, hstay, hheap]
  case path =>
    rw [ofoPath_append]
    exact path_insert hnodup hpath hmem hlast hpos
  case hidden_nil => simp
  case back =>
    intro x hx
    have hback := h.back x (by rwa [hfirst] at hx ⊢)
    have hx₁ : x ∈ nodes₁.map OfoNode.entry := by
      rw [hfirst, ← List.head?_map] at hx
      exact List.mem_of_mem_head? hx
    have hxn : x ≠ .entry n := by
      rintro rfl
      exact hmem (List.mem_append_left _ hx₁)
    have hxpos : x ≠ pos := by
      rintro rfl
      exact (List.nodup_append'.mp hnodup).2.2 hx₁ (List.mem_of_mem_head? hpos)
    have hprev : (s.links.insert (.entry n) last pos).prev x = s.links.prev x := by
      simp [Links.insert, hxn, hxpos]
    simp only [hprev]
    exact hback

/-- A new entry before the first one is linked behind the copy of the head. -/
theorem Represents.linkFront {k n : ℕ} {buf : OfoBuffer} (h : Represents s (k :: nodes) l)
    (hn : s.entries[n]? = some buf) (hnew : n ∉ k :: nodes) :
    Represents { s with links := s.links.insert (.entry n) .stack (.entry k) } (k :: nodes)
      { l with hidden := buf :: l.hidden } := by
  have hmem : .entry n ∉ ofoPath (k :: nodes) := mt entry_mem_ofoPath.mp hnew
  have hne : ∀ y ∈ ofoPath (k :: nodes), y ≠ .entry n ∧ y ≠ .stack := fun y hy =>
    ⟨fun heq => hmem (heq ▸ hy), fun heq => stack_not_mem_ofoPath _ (heq ▸ hy)⟩
  have hkn : k ≠ n := fun heq => hnew (heq ▸ List.mem_cons_self)
  constructor
  case nodup => exact h.nodup
  case holding => exact h.holding
  case first =>
    rw [← h.first]
    simp [Links.insert]
  case path =>
    apply path_of_agree (nodup_ofoPath h.nodup) h.path rfl (List.getLast?_concat ..)
    · intro y hy _
      simp [Links.insert, hne y hy]
    · intro y hy hfirst
      simp [Links.insert, hne y hy, hfirst]
  case hidden_nil =>
    intro hnil
    have hlength := h.holding.length_eq
    simp [show l.entries = [] from hnil] at hlength
  case back =>
    intro x hx
    obtain rfl : OfoNode.entry k = x := by simpa using hx
    exact ⟨n, hn, by simp [Links.insert, hkn]⟩

/-- A new entry in the empty list. -/
theorem Represents.linkFirst {n : ℕ} {buf : OfoBuffer} (h : Represents s [] l)
    (hn : s.entries[n]? = some buf) :
    s.links.prev .head = some .head ∧
      Represents { s with links := s.links.insert (.entry n) .head .head } [n]
        { l with entries := [buf] } := by
  have hnil : l.entries = [] := List.length_eq_zero_iff.mp h.holding.length_eq.symm
  have hhidden := h.hidden_nil hnil
  have hback := h.back .head rfl
  rw [hhidden] at hback
  refine ⟨hback, ?_⟩
  constructor <;> simp [Holding, hn, hhidden, LinkedLists.Joined, LinkedBack, Links.insert]

theorem Represents.prev_head (h : Represents s nodes l) {last : OfoNode}
    (hlast : last ∈ (nodes.map OfoNode.entry).getLast?) : s.links.prev .head = some last := by
  obtain ⟨-, -, hjoin⟩ := List.isChain_append.mp h.path
  exact (hjoin last hlast .head rfl).2

/-- The segment after the ones that begin earlier. -/
theorem insertOfo_append {buf : OfoBuffer} {bufs₁ : List OfoBuffer} (bufs₂ : List OfoBuffer)
    (hearlier : ∀ b ∈ bufs₁, b.seq < buf.seq) :
    insertOfo buf (bufs₁ ++ bufs₂) = bufs₁ ++ insertOfo buf bufs₂ := by
  induction bufs₁ with
  | nil => rfl
  | cons b bufs₁ ih =>
    have hb := hearlier b List.mem_cons_self
    have hrest := ih fun c hc => hearlier c (List.mem_cons_of_mem _ hc)
    simp [insertOfo, hb, hrest]

/-- Only a segment before the first entry does not get into the list. -/
theorem insert_entries {buf : OfoBuffer} (hfirst : ∀ first ∈ l.entries.head?, first.seq ≤ buf.seq) :
    l.insert buf = { l with entries := insertOfo buf l.entries } := by
  cases hentries : l.entries with
  | nil => simp [OfoList.insert, hentries, insertOfo]
  | cons first rest =>
    have hle := hfirst first (by simp [hentries])
    simp only [OfoList.insert, hentries, insertOfo]
    split_ifs with hlt heq
    · rfl
    · rw [← hentries]
    · exact absurd (UInt32.le_antisymm (UInt32.not_lt.mp hlt) hle) heq

section Write

variable {nodes₁ nodes₂ : List ℕ} {bufs₁ bufs₂ : List OfoBuffer} {n : ℕ} {buf : OfoBuffer}

/-- The list by the place of a new segment: `n` is its entry, and the entries of the
second part do not begin before it. -/
structure Placed (s : OfoHeap) (l : OfoList) (n : ℕ) (buf : OfoBuffer) (nodes₁ nodes₂ : List ℕ)
    (bufs₁ bufs₂ : List OfoBuffer) : Prop where
  represents : Represents s (nodes₁ ++ nodes₂) l
  entries : l.entries = bufs₁ ++ bufs₂
  before : Holding s nodes₁ bufs₁
  after : Holding s nodes₂ bufs₂
  earlier : ∀ b ∈ bufs₁, b.seq < buf.seq
  later : ∀ b ∈ bufs₂.head?, buf.seq ≤ b.seq
  entry : s.entries[n]? = some buf
  new : n ∉ nodes₁ ++ nodes₂
  fuel : (nodes₁ ++ nodes₂).length < s.entries.length

/-- Behind an entry that begins earlier the segment gets into the list. -/
theorem Placed.insert_eq (h : Placed s l n buf nodes₁ nodes₂ bufs₁ bufs₂) (hne : bufs₁ ≠ []) :
    l.insert buf = { l with entries := bufs₁ ++ insertOfo buf bufs₂ } := by
  have hfirst : ∀ first ∈ l.entries.head?, first.seq ≤ buf.seq := by
    intro first hfirst
    rw [h.entries, List.head?_append_of_ne_nil _ hne] at hfirst
    exact UInt32.le_of_lt (h.earlier first (List.mem_of_mem_head? hfirst))
  rw [insert_entries hfirst, h.entries, insertOfo_append bufs₂ h.earlier]

theorem Placed.findPlace (h : Placed s l n buf nodes₁ nodes₂ bufs₁ bufs₂) {last pos : OfoNode}
    (hlast : last ∈ (OfoNode.stack :: nodes₁.map .entry).getLast?)
    (hpos : pos ∈ (ofoPath nodes₂).head?) :
    ∃ fuel, (s.links.next .head).bind (s.findPlace buf.seq s.entries.length .stack) =
      s.findPlace buf.seq (fuel + 1) last pos := by
  obtain ⟨fuel, hfuel⟩ : ∃ fuel, s.entries.length = fuel + 1 + nodes₁.length := by
    have hlength := h.fuel
    rw [List.length_append] at hlength
    exact ⟨s.entries.length - 1 - nodes₁.length, by omega⟩
  have hfirst := List.head?_eq_some_head (l := ofoPath (nodes₁ ++ nodes₂)) (by simp [ofoPath])
  refine ⟨fuel, ?_⟩
  rw [h.represents.first, hfirst, Option.bind_some, hfuel]
  exact findPlace_skip h.before h.earlier h.represents.path hfirst hlast hpos

/-- What the loop starts from and stops at. -/
theorem Placed.last (h : Placed s l n buf nodes₁ nodes₂ bufs₁ bufs₂) :
    (nodes₁ = [] ∧ bufs₁ = []) ∨ (bufs₁ ≠ [] ∧
      ∃ last, last ∈ (nodes₁.map OfoNode.entry).getLast? ∧
        last ∈ (OfoNode.stack :: nodes₁.map .entry).getLast?) := by
  have hlength := h.before.length_eq
  cases nodes₁ using List.reverseRecOn with
  | nil => exact .inl ⟨rfl, List.length_eq_zero_iff.mp hlength.symm⟩
  | append_singleton nodes₁ last =>
    refine .inr ⟨?_, .entry last, by simp, by simp [List.getLast?_cons]⟩
    rintro rfl
    simp at hlength

/-- Every entry begins earlier: the segment becomes the last one. -/
theorem Placed.link_atEnd (h : Placed s l n buf nodes₁ [] bufs₁ []) :
    ∃ s' nodes', ((s.links.next .head).bind (s.findPlace buf.seq s.entries.length .stack)).bind
      (s.link (.entry n)) = some s' ∧ Represents s' nodes' (l.insert buf) := by
  have hrep := h.represents
  rcases h.last with ⟨rfl, rfl⟩ | ⟨hne, last, hlast, hstart⟩
  · have hstart : OfoNode.stack ∈ (OfoNode.stack :: ([] : List ℕ).map .entry).getLast? := rfl
    obtain ⟨fuel, hfind⟩ := h.findPlace hstart rfl
    obtain ⟨hprev, hlink⟩ := hrep.linkFirst h.entry
    have hinsert : l.insert buf = { l with entries := [buf] } := by
      simp [OfoList.insert, h.entries]
    refine ⟨_, _, ?_, hinsert ▸ hlink⟩
    simp [hfind, OfoHeap.findPlace, OfoHeap.link, Links.addTail, hprev]
  · obtain ⟨fuel, hfind⟩ := h.findPlace hstart rfl
    have hlink := hrep.link h.entries h.before.length_eq h.entry h.new hlast rfl
    refine ⟨_, _, ?_, h.insert_eq hne ▸ hlink⟩
    rw [List.append_nil] at hrep
    simp [hfind, OfoHeap.findPlace, OfoHeap.link, Links.addTail, hrep.prev_head hlast]

/-- An entry begins where the segment does: nothing is linked. -/
theorem Placed.link_stored {m : ℕ} {b : OfoBuffer}
    (h : Placed s l n buf nodes₁ (m :: nodes₂) bufs₁ (b :: bufs₂)) (hb : buf.seq = b.seq) :
    ∃ s' nodes', ((s.links.next .head).bind (s.findPlace buf.seq s.entries.length .stack)).bind
      (s.link (.entry n)) = some s' ∧ Represents s' nodes' (l.insert buf) := by
  have hm := (holding_cons.mp h.after).1
  have hinsert : l.insert buf = l := by
    have hentries := h.entries
    rcases h.last with ⟨-, rfl⟩ | ⟨hne, -⟩
    · simp only [OfoList.insert, hentries, List.nil_append, hb, gt_iff_lt, UInt32.lt_irrefl,
        if_false, if_true]
    · rw [h.insert_eq hne]
      simp only [insertOfo, hb, gt_iff_lt, UInt32.lt_irrefl, if_false, if_true, ← hentries]
  obtain ⟨last, hstart⟩ : ∃ last, last ∈ (OfoNode.stack :: nodes₁.map .entry).getLast? :=
    ⟨_, List.getLast?_eq_getLast_of_ne_nil (List.cons_ne_nil _ _)⟩
  obtain ⟨fuel, hfind⟩ := h.findPlace hstart rfl
  refine ⟨s, _, ?_, hinsert.symm ▸ h.represents⟩
  rw [hfind]
  simp [OfoHeap.findPlace, OfoHeap.ofo, hm, hb, OfoHeap.link]

/-- The first entry that does not begin earlier begins later. -/
theorem Placed.link_before {m : ℕ} {b : OfoBuffer}
    (h : Placed s l n buf nodes₁ (m :: nodes₂) bufs₁ (b :: bufs₂)) (hb : buf.seq < b.seq) :
    ∃ s' nodes', ((s.links.next .head).bind (s.findPlace buf.seq s.entries.length .stack)).bind
      (s.link (.entry n)) = some s' ∧ Represents s' nodes' (l.insert buf) := by
  have hm := (holding_cons.mp h.after).1
  have hrep := h.represents
  have hlt : ¬ b.seq < buf.seq := UInt32.lt_asymm hb
  have hne' : buf.seq ≠ b.seq := UInt32.ne_of_lt hb
  rcases h.last with ⟨rfl, rfl⟩ | ⟨hne, last, hlast, hstart⟩
  · have hstart : OfoNode.stack ∈ (OfoNode.stack :: ([] : List ℕ).map .entry).getLast? := rfl
    obtain ⟨fuel, hfind⟩ := h.findPlace hstart rfl
    have hlink := hrep.linkFront h.entry h.new
    have hinsert : l.insert buf = { l with hidden := buf :: l.hidden } := by
      simp [OfoList.insert, h.entries, hlt, hne']
    refine ⟨_, _, ?_, hinsert ▸ hlink⟩
    simp [hfind, OfoHeap.findPlace, OfoHeap.ofo, hm, hlt, hne', OfoHeap.link]
  · obtain ⟨fuel, hfind⟩ := h.findPlace hstart rfl
    have hlink := hrep.link h.entries h.before.length_eq h.entry h.new hlast rfl
    have hinsert : l.insert buf = { l with entries := bufs₁ ++ buf :: b :: bufs₂ } := by
      rw [h.insert_eq hne]
      simp [insertOfo, hlt, hne']
    refine ⟨_, _, ?_, hinsert ▸ hlink⟩
    simp [hfind, OfoHeap.findPlace, OfoHeap.ofo, hm, hlt, hne', OfoHeap.link]

/-- The links after the call, whatever the place of the segment. -/
theorem Placed.link (h : Placed s l n buf nodes₁ nodes₂ bufs₁ bufs₂) :
    ∃ s' nodes', ((s.links.next .head).bind (s.findPlace buf.seq s.entries.length .stack)).bind
      (s.link (.entry n)) = some s' ∧ Represents s' nodes' (l.insert buf) := by
  have hlength := h.after.length_eq
  cases nodes₂ with
  | nil =>
    obtain rfl : bufs₂ = [] := List.length_eq_zero_iff.mp hlength.symm
    exact h.link_atEnd
  | cons m nodes₂ =>
    cases bufs₂ with
    | nil => simp at hlength
    | cons b bufs₂ =>
      by_cases hb : buf.seq = b.seq
      · exact h.link_stored hb
      · exact h.link_before (UInt32.lt_of_le_of_ne (h.later b rfl) hb)

end Write

/-- Where a segment has its place in the list. -/
theorem exists_split (seq : UInt32) (bufs : List OfoBuffer) :
    ∃ bufs₁ bufs₂, bufs = bufs₁ ++ bufs₂ ∧ (∀ b ∈ bufs₁, b.seq < seq) ∧
      ∀ b ∈ bufs₂.head?, seq ≤ b.seq := by
  refine ⟨bufs.takeWhile fun b => decide (b.seq < seq),
    bufs.dropWhile fun b => decide (b.seq < seq),
    List.takeWhile_append_dropWhile.symm, fun b hb => ?_, fun b hb => ?_⟩
  · simpa using List.mem_takeWhile_imp hb
  · have hnot := List.head?_dropWhile_not (fun b : OfoBuffer => decide (b.seq < seq)) bufs
    rw [Option.mem_def.mp hb] at hnot
    simpa using hnot

/-- `write_ofo_buffer` does with the links what the list of the socket says. -/
theorem Represents.write (h : Represents s nodes l) {cb : TcpCb} (hlen : 0 ≤ cb.plLen) :
    ∃ s' nodes', s.writeOfoBuffer cb = some s' ∧ Represents s' nodes' (l.insert cb.ofoBuffer) := by
  obtain ⟨bufs₁, bufs₂, hentries, hearlier, hlater⟩ := exists_split cb.seq l.entries
  have hrep := h.allocate cb.ofoBuffer
  have hholding := hrep.holding
  rw [Holding, hentries, List.map_append] at hholding
  obtain ⟨nodes₁, nodes₂, rfl, hbefore, hafter⟩ := List.map_eq_append_iff.mp hholding
  have hplaced : Placed (s.allocate cb.ofoBuffer) l s.entries.length cb.ofoBuffer nodes₁ nodes₂
      bufs₁ bufs₂ := by
    refine ⟨hrep, hentries, hbefore, hafter, hearlier, hlater, ?_, ?_, ?_⟩
    · simp [OfoHeap.allocate]
    · exact fun hmem => (h.holding.lt hmem).false
    · have hlength := h.length_le
      simp only [OfoHeap.allocate, List.length_append, List.length_singleton] at hlength ⊢
      omega
  obtain ⟨s', nodes', hlink, hrep'⟩ := hplaced.link
  refine ⟨s', nodes', ?_, hrep'⟩
  rw [OfoHeap.writeOfoBuffer, if_neg (not_lt.mpr hlen), ← hlink, Option.bind_assoc]
  rfl

/-- Without hidden entries the links form a ring, and a traversal visits its nodes. -/
theorem Represents.traverse (h : Represents s nodes l) :
    s.links.traverse s.entries.length .head = some (nodes.map .entry) := by
  have hfirst := List.head?_eq_some_head (l := ofoPath nodes) (by simp [ofoPath])
  rw [Links.traverse, h.first, hfirst, Option.bind_some]
  apply walk_path _ h.path hfirst
  · simpa using h.length_le
  · simp

theorem Represents.ring (h : Represents s nodes l) (hhidden : l.hidden = []) :
    Ring s.links (.head :: nodes.map .entry) := by
  have hfirst := List.head?_eq_some_head (l := ofoPath nodes) (by simp [ofoPath])
  have hback := h.back _ hfirst
  rw [hhidden] at hback
  apply ring_of_path _ h.path hfirst ⟨h.first.trans hfirst, hback⟩
  have hnodup := nodup_ofoPath h.nodup
  rwa [ofoPath, (List.perm_append_singleton _ _).nodup_iff] at hnodup

end Representation

section Stored

/-- The list after the calls. -/
def storedOfo (cbs : List TcpCb) : OfoList :=
  cbs.foldl (fun l cb => l.insert cb.ofoBuffer) ⟨[], [], false⟩

theorem storedOfo_concat (cbs : List TcpCb) (cb : TcpCb) :
    storedOfo (cbs ++ [cb]) = (storedOfo cbs).insert cb.ofoBuffer := by
  simp [storedOfo]

theorem represents_storedOfo {cbs : List TcpCb} (hlen : ∀ cb ∈ cbs, 0 ≤ cb.plLen) :
    ∃ s nodes, OfoHeap.init.writeOfoBuffers cbs = some s ∧
      Represents s nodes (storedOfo cbs) := by
  induction cbs using List.reverseRecOn with
  | nil => exact ⟨_, _, rfl, represents_init⟩
  | append_singleton cbs cb ih =>
    obtain ⟨s, nodes, hs, hrep⟩ := ih fun c hc => hlen c (List.mem_append_left _ hc)
    obtain ⟨s', nodes', hs', hrep'⟩ := hrep.write (hlen cb (by simp))
    refine ⟨s', nodes', ?_, storedOfo_concat cbs cb ▸ hrep'⟩
    have hrun : cbs.foldlM OfoHeap.writeOfoBuffer OfoHeap.init = some s := hs
    simp [OfoHeap.writeOfoBuffers, List.foldlM_append, hrun, hs']

/-- A payload of negative length is not copied. -/
theorem plLen_nonneg_of_writeOfoBuffers {cbs : List TcpCb} {s s' : OfoHeap}
    (h : s.writeOfoBuffers cbs = some s') : ∀ cb ∈ cbs, 0 ≤ cb.plLen := by
  induction cbs generalizing s with
  | nil => simp
  | cons cb cbs ih =>
    obtain ⟨s₁, hs₁, hrest⟩ := Option.bind_eq_some_iff.mp h
    intro c hc
    rcases List.mem_cons.mp hc with rfl | hc
    · by_contra hneg
      simp [OfoHeap.writeOfoBuffer, not_le.mp hneg] at hs₁
    · exact ih hrest c hc

theorem insert_cases (l : OfoList) (buf : OfoBuffer) :
    (∀ first ∈ l.entries.head?, first.seq ≤ buf.seq) ∧
        l.insert buf = { l with entries := insertOfo buf l.entries } ∨
      (∃ first ∈ l.entries.head?, buf.seq < first.seq) ∧
        l.insert buf = { l with hidden := buf :: l.hidden } := by
  by_cases hfirst : ∀ first ∈ l.entries.head?, first.seq ≤ buf.seq
  · exact .inl ⟨hfirst, insert_entries hfirst⟩
  · simp only [not_forall, UInt32.not_le] at hfirst
    obtain ⟨first, hfirst, hlt⟩ := hfirst
    obtain ⟨rest, hentries⟩ := List.head?_eq_some_iff.mp hfirst
    refine .inr ⟨⟨first, hfirst, hlt⟩, ?_⟩
    simp [OfoList.insert, hentries, UInt32.lt_asymm hlt, UInt32.ne_of_lt hlt]

theorem sorted_storedOfo (cbs : List TcpCb) :
    (storedOfo cbs).entries.Pairwise fun a b => a.seq < b.seq := by
  induction cbs using List.reverseRecOn with
  | nil => exact .nil
  | append_singleton cbs cb ih =>
    rw [storedOfo_concat]
    rcases insert_cases (storedOfo cbs) cb.ofoBuffer with ⟨-, hinsert⟩ | ⟨-, hinsert⟩
    · rw [hinsert]
      exact sorted_insertOfo ih
    · rw [hinsert]
      exact ih

/-- The first entry stays the first. -/
theorem head_insert {l : OfoList} {first : OfoBuffer} (buf : OfoBuffer)
    (hfirst : l.entries.head? = some first) : (l.insert buf).entries.head? = some first := by
  rcases insert_cases l buf with ⟨hle, hinsert⟩ | ⟨-, hinsert⟩
  · obtain ⟨rest, hentries⟩ := List.head?_eq_some_iff.mp hfirst
    have hseq := hle first hfirst
    rw [hinsert, hentries, insertOfo]
    split_ifs with hlt heq
    · rfl
    · rfl
    · exact absurd (UInt32.le_antisymm (UInt32.not_lt.mp hlt) hseq) heq
  · rwa [hinsert]

theorem head_storedOfo (cbs : List TcpCb) :
    (storedOfo cbs).entries.head? = cbs.head?.map TcpCb.ofoBuffer := by
  induction cbs using List.reverseRecOn with
  | nil => rfl
  | append_singleton cbs cb ih =>
    rw [storedOfo_concat]
    cases cbs with
    | nil => rfl
    | cons first cbs => exact head_insert cb.ofoBuffer ih

theorem le_of_mem_storedOfo {cbs : List TcpCb} {first : TcpCb} {buf : OfoBuffer}
    (hfirst : first ∈ cbs.head?) (hbuf : buf ∈ (storedOfo cbs).entries) :
    first.seq ≤ buf.seq := by
  have hhead := head_storedOfo cbs
  rw [Option.mem_def.mp hfirst] at hhead
  obtain ⟨rest, hentries⟩ := List.head?_eq_some_iff.mp hhead
  have hsorted := sorted_storedOfo cbs
  rw [hentries] at hbuf hsorted
  rcases List.mem_cons.mp hbuf with rfl | hmem
  · exact UInt32.le_refl _
  · exact UInt32.le_of_lt ((List.pairwise_cons.mp hsorted).1 buf hmem)

/-- Every segment is stored: none has a payload of negative length, or begins before the
first one. -/
def Storable (cbs : List TcpCb) : Prop :=
  (∀ cb ∈ cbs, 0 ≤ cb.plLen) ∧ ∀ first ∈ cbs.head?, ∀ cb ∈ cbs, first.seq ≤ cb.seq

instance (cbs : List TcpCb) : Decidable (Storable cbs) := by
  unfold Storable
  infer_instance

/-- The first segment with the number of the entry is what the entry holds. -/
def FirstStored (cbs : List TcpCb) (buf : OfoBuffer) : Prop :=
  ∃ cb, cbs.find? (fun cb => cb.seq = buf.seq) = some cb ∧ cb.ofoBuffer = buf

theorem firstStored_concat {cbs : List TcpCb} {cb : TcpCb} {buf : OfoBuffer} :
    FirstStored (cbs ++ [cb]) buf ↔
      FirstStored cbs buf ∨ buf = cb.ofoBuffer ∧ ∀ c ∈ cbs, c.seq ≠ cb.seq := by
  simp only [FirstStored, List.find?_append]
  cases hfind : cbs.find? fun c => c.seq = buf.seq with
  | none =>
    have hnone : ∀ c ∈ cbs, c.seq ≠ buf.seq := by simpa using hfind
    constructor
    · rintro ⟨c, hc, rfl⟩
      obtain ⟨-, rfl⟩ : _ ∧ cb = c := by simpa using hc
      exact .inr ⟨rfl, hnone⟩
    · rintro (⟨c, hc, -⟩ | ⟨rfl, -⟩)
      · cases hc
      · exact ⟨cb, by simp [TcpCb.ofoBuffer], rfl⟩
  | some c =>
    have hc : c ∈ cbs ∧ c.seq = buf.seq :=
      ⟨List.mem_of_find?_eq_some hfind, by simpa using List.find?_some hfind⟩
    constructor
    · exact .inl
    · rintro (hstored | ⟨rfl, hnew⟩)
      · exact hstored
      · exact absurd hc.2 (hnew c hc.1)

/-- The numbers that have an entry are the ones that were inserted. -/
theorem exists_firstStored_iff {cbs : List TcpCb} {seq : UInt32} :
    (∃ buf, FirstStored cbs buf ∧ buf.seq = seq) ↔ ∃ cb ∈ cbs, cb.seq = seq := by
  constructor
  · rintro ⟨buf, ⟨cb, hfind, -⟩, rfl⟩
    exact ⟨cb, List.mem_of_find?_eq_some hfind, by simpa using List.find?_some hfind⟩
  · rintro ⟨cb, hcb, rfl⟩
    have hsome : (cbs.find? fun c => c.seq = cb.seq).isSome := by
      simpa using ⟨cb, hcb, rfl⟩
    obtain ⟨c, hfind⟩ := Option.isSome_iff_exists.mp hsome
    have hseq : c.seq = cb.seq := by simpa using List.find?_some hfind
    refine ⟨c.ofoBuffer, ⟨c, ?_, rfl⟩, hseq⟩
    rw [← hfind]
    simp [TcpCb.ofoBuffer, hseq]

theorem mem_insertOfo_iff {buf b : OfoBuffer} {entries : List OfoBuffer}
    (hsorted : entries.Pairwise fun a b => a.seq < b.seq) :
    b ∈ insertOfo buf entries ↔ b ∈ entries ∨ b = buf ∧ ∀ c ∈ entries, c.seq ≠ buf.seq := by
  induction entries with
  | nil => simp [insertOfo]
  | cons pos rest ih =>
    obtain ⟨hfirst, hrest⟩ := List.pairwise_cons.mp hsorted
    simp only [insertOfo]
    split_ifs with hgt heq
    · have hne : pos.seq ≠ buf.seq := UInt32.ne_of_lt hgt
      simp [ih hrest, hne, or_assoc]
    · simp [heq]
    · have hlt : buf.seq < pos.seq := by grind
      have hne : ∀ c ∈ pos :: rest, c.seq ≠ buf.seq := by
        intro c hc
        rcases List.mem_cons.mp hc with rfl | hmem
        · exact (UInt32.ne_of_lt hlt).symm
        · exact (UInt32.ne_of_lt (UInt32.lt_trans hlt (hfirst c hmem))).symm
      simp only [List.mem_cons] at hne ⊢
      tauto

theorem Storable.concat {cbs : List TcpCb} {cb : TcpCb} (h : Storable (cbs ++ [cb])) :
    Storable cbs := by
  refine ⟨fun c hc => h.1 c (List.mem_append_left _ hc), fun first hfirst c hc => ?_⟩
  exact h.2 first (by simp [Option.mem_def.mp hfirst]) c (List.mem_append_left _ hc)

/-- Nothing is hidden, and each number has the entry of its first segment. -/
theorem Storable.stored {cbs : List TcpCb} (h : Storable cbs) :
    (storedOfo cbs).hidden = [] ∧
      ∀ buf, buf ∈ (storedOfo cbs).entries ↔ FirstStored cbs buf := by
  induction cbs using List.reverseRecOn with
  | nil => simp [storedOfo, FirstStored]
  | append_singleton cbs cb ih =>
    obtain ⟨hhidden, hmem⟩ := ih h.concat
    have hfirst : ∀ first ∈ (storedOfo cbs).entries.head?, first.seq ≤ cb.ofoBuffer.seq := by
      intro first hfirst
      rw [head_storedOfo] at hfirst
      obtain ⟨c, hc, rfl⟩ := Option.map_eq_some_iff.mp hfirst
      exact h.2 c (by simp [hc]) cb (by simp)
    rw [storedOfo_concat, insert_entries hfirst]
    refine ⟨hhidden, fun buf => ?_⟩
    have hnumber : (∀ c ∈ (storedOfo cbs).entries, c.seq ≠ cb.seq) ↔ ∀ c ∈ cbs, c.seq ≠ cb.seq := by
      have hexists : (¬ ∃ buf, FirstStored cbs buf ∧ buf.seq = cb.seq) ↔ _ :=
        not_congr exists_firstStored_iff
      simpa [hmem] using hexists
    rw [mem_insertOfo_iff (sorted_storedOfo cbs), firstStored_concat, hmem]
    exact or_congr_right (and_congr_right fun _ => hnumber)

end Stored

section Order

/-- In the order of the sequence space a number comes before the ones that follow it by at
most half the space. -/
theorem lessThan32b_iff_of_lt {a b : UInt32} (h : a < b) :
    lessThan32b a b ↔ b.toNat - a.toNat ≤ 2 ^ 31 := by
  have hlt := UInt32.lt_iff_toNat_lt.mp h
  have ha := a.toNat_lt
  have hb := b.toNat_lt
  have hneg : (a - b).toInt32.toInt = (a - b).toBitVec.toInt := rfl
  have hsub : (a - b).toBitVec.toNat = 2 ^ 32 - b.toNat + a.toNat := by
    have hmod := UInt32.toNat_sub a b
    rw [Nat.mod_eq_of_lt (by omega)] at hmod
    exact hmod
  simp only [lessThan32b, decide_eq_true_eq, Int32.lt_iff_toInt_lt, hneg,
    BitVec.toInt_eq_toNat_cond, hsub, Int32.toInt_zero]
  split_ifs <;> omega

/-- The entries are in the order of the sequence space if they are within half of it. -/
theorem pairwise_lessThan32b_iff {cbs : List TcpCb} (h : Storable cbs) :
    ((storedOfo cbs).entries.Pairwise fun a b => lessThan32b a.seq b.seq) ↔
      ∀ first ∈ cbs.head?, ∀ cb ∈ cbs, cb.seq.toNat - first.seq.toNat ≤ 2 ^ 31 := by
  have hsorted := sorted_storedOfo cbs
  have hmem := h.stored.2
  constructor
  · intro hpairwise first hfirst cb hcb
    obtain ⟨buf, hstored, hseq⟩ := exists_firstStored_iff.mpr ⟨cb, hcb, rfl⟩
    have hbuf := (hmem buf).mpr hstored
    have hhead := head_storedOfo cbs
    rw [Option.mem_def.mp hfirst] at hhead
    obtain ⟨rest, hentries⟩ := List.head?_eq_some_iff.mp hhead
    rw [hentries] at hbuf hpairwise hsorted
    rcases List.mem_cons.mp hbuf with rfl | hrest
    · rw [← hseq]
      simp [TcpCb.ofoBuffer]
    · have hlt := (List.pairwise_cons.mp hsorted).1 buf hrest
      rw [← hseq]
      exact (lessThan32b_iff_of_lt hlt).mp ((List.pairwise_cons.mp hpairwise).1 buf hrest)
  · intro hhalf
    apply hsorted.imp_of_mem
    intro a b ha hb hlt
    obtain ⟨cb, hcb, hseq⟩ := exists_firstStored_iff.mp ⟨b, (hmem b).mp hb, rfl⟩
    obtain ⟨first, hfirst⟩ : ∃ first, first ∈ cbs.head? :=
      ⟨_, List.head?_eq_some_head (List.ne_nil_of_mem hcb)⟩
    have hle := UInt32.le_iff_toNat_le.mp (le_of_mem_storedOfo hfirst ha)
    have hwithin := hhalf first hfirst cb hcb
    rw [lessThan32b_iff_of_lt hlt, ← hseq]
    omega

end Order

section Main

/-- The links form a ring of the head and these entries, in ascending order, and the
entries hold the first segment with each number that was inserted. -/
structure KeepsAll (lt : UInt32 → UInt32 → Prop) (cbs : List TcpCb) (s : OfoHeap)
    (nodes : List ℕ) (bufs : List OfoBuffer) : Prop where
  run : OfoHeap.init.writeOfoBuffers cbs = some s
  traverse : s.links.traverse s.entries.length .head = some (nodes.map .entry)
  ring : Ring s.links (.head :: nodes.map .entry)
  holding : Holding s nodes bufs
  ascending : bufs.Pairwise fun a b => lt a.seq b.seq
  complete : ∀ buf, buf ∈ bufs ↔ FirstStored cbs buf

variable {cbs : List TcpCb} {lt : UInt32 → UInt32 → Prop}

theorem keepsAll_of_storable (h : Storable cbs)
    (hascending : (storedOfo cbs).entries.Pairwise fun a b => lt a.seq b.seq) :
    ∃ s nodes, KeepsAll lt cbs s nodes (storedOfo cbs).entries := by
  obtain ⟨s, nodes, hs, hrep⟩ := represents_storedOfo h.1
  obtain ⟨hhidden, hmem⟩ := h.stored
  exact ⟨s, nodes, hs, hrep.traverse, hrep.ring hhidden, hrep.holding, hascending, hmem⟩

/-- The entries that a traversal visits are those of the described list. -/
theorem KeepsAll.entries_eq {s : OfoHeap} {nodes : List ℕ} {bufs : List OfoBuffer}
    (h : KeepsAll lt cbs s nodes bufs) : bufs = (storedOfo cbs).entries := by
  obtain ⟨s', nodes', hs', hrep⟩ :=
    represents_storedOfo (plLen_nonneg_of_writeOfoBuffers h.run)
  obtain rfl : s = s' := Option.some.inj (h.run.symm.trans hs')
  have hnodes : nodes = nodes' := by
    have hmap := Option.some.inj (h.traverse.symm.trans hrep.traverse)
    exact List.map_injective_iff.mpr (fun a b hab => by simpa using hab) hmap
  subst hnodes
  exact List.map_injective_iff.mpr (Option.some_injective _) (h.holding.symm.trans hrep.holding)

/-- A segment that begins before the first one has no entry. -/
theorem KeepsAll.storable {s : OfoHeap} {nodes : List ℕ} {bufs : List OfoBuffer}
    (h : KeepsAll lt cbs s nodes bufs) : Storable cbs := by
  refine ⟨plLen_nonneg_of_writeOfoBuffers h.run, fun first hfirst cb hcb => ?_⟩
  obtain ⟨buf, hstored, hseq⟩ := exists_firstStored_iff.mpr ⟨cb, hcb, rfl⟩
  have hbuf := (h.complete buf).mpr hstored
  rw [h.entries_eq] at hbuf
  exact hseq ▸ le_of_mem_storedOfo hfirst hbuf

/-- The list keeps every segment, in the order of the numbers or in that of the sequence
space, if and only if none begins before the first one. -/
theorem keepsAll_iff (cbs : List TcpCb) :
    ((∃ s nodes bufs, KeepsAll (fun a b => a < b) cbs s nodes bufs) ↔ Storable cbs) ∧
    ((∃ s nodes bufs, KeepsAll (fun a b => lessThan32b a b) cbs s nodes bufs) ↔
      Storable cbs ∧
        ∀ first ∈ cbs.head?, ∀ cb ∈ cbs, cb.seq.toNat - first.seq.toNat ≤ 2 ^ 31) := by
  refine ⟨⟨?_, ?_⟩, ?_, ?_⟩
  · rintro ⟨s, nodes, bufs, h⟩
    exact h.storable
  · intro h
    obtain ⟨s, nodes, hkeeps⟩ := keepsAll_of_storable h (sorted_storedOfo cbs)
    exact ⟨s, nodes, _, hkeeps⟩
  · rintro ⟨s, nodes, bufs, h⟩
    have hascending := h.ascending
    rw [h.entries_eq] at hascending
    exact ⟨h.storable, (pairwise_lessThan32b_iff h.storable).mp hascending⟩
  · rintro ⟨h, hhalf⟩
    obtain ⟨s, nodes, hkeeps⟩ : ∃ s nodes, KeepsAll (fun a b => lessThan32b a b) cbs s nodes _ :=
      keepsAll_of_storable h ((pairwise_lessThan32b_iff h).mpr hhalf)
    exact ⟨s, nodes, _, hkeeps⟩

/-- A segment of one byte. -/
def byteCb (seq : UInt32) (byte : UInt8) : TcpCb :=
  ⟨0, 0, 0, 0, seq, seq + 1, 0, 0, tcpPsh, [byte], 1⟩

/-- The second of two segments begins before the first one. -/
theorem writeOfoBuffer_loses_segment :
    ¬ (∃ s nodes bufs, KeepsAll (fun a b => a < b) [byteCb 20 1, byteCb 10 2] s nodes bufs) ∧
    ¬ (∃ s nodes bufs,
      KeepsAll (fun a b => lessThan32b a b) [byteCb 20 1, byteCb 10 2] s nodes bufs) := by
  have hnot : ¬ Storable [byteCb 20 1, byteCb 10 2] := by decide
  constructor
  · rintro ⟨s, nodes, bufs, h⟩
    exact hnot h.storable
  · rintro ⟨s, nodes, bufs, h⟩
    exact hnot h.storable

end Main

end NetworkLab.Tcp
