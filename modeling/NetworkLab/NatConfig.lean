import NetworkLab.NatTranslation
import NetworkLab.Scanf

/-!
# The configuration of the translation

`parse_config` reads a file with two parts: lines that name the interfaces, and after an empty line
the rules. Local variables keep what was stored in them by an earlier line where a directive does
not match; a word that does not fit into its buffer has no defined result.
-/
namespace NetworkLab.Nat
open Scanf

section Model

/-- The local variables of `parse_config`. -/
structure ConfigVars where
  type : List Char
  name : List Char
  exter : List Char
  inter : List Char
  ip4 : UInt32
  ip3 : UInt32
  ip2 : UInt32
  ip1 : UInt32
  port : UInt16

/-- They and the fields of `nat` that are set. -/
structure Config where
  vars : ConfigVars
  internalIface : Option Iface
  externalIface : Option Iface
  rules : List DnatRule

def internalIfaceType : List Char := "internal-iface".toList

def externalIfaceType : List Char := "external-iface".toList

def dnatRulesType : List Char := "dnat-rules".toList

/-- `if_name_to_iface`; the list has the interfaces with their names. -/
def ifNameToIface (ifaceList : List (List Char × Iface)) (name : List Char) : Option Iface :=
  (ifaceList.find? fun iface => decide (iface.1 = name)).map (·.2)

/-- `%s` into a buffer of this size. -/
def scanWord (size : ℕ) (old : List Char) (input : Option (List Char)) :
    Option (List Char × Option (List Char)) :=
  let read := scan word old input
  if read.1.length < size then some read else none

/-- A line of the first part. -/
def loadIface (ifaceList : List (List Char × Iface)) (line : List Char) (c : Config) :
    Option Config := do
  let type ← scanWord 128 c.vars.type (some (cString line))
  let name ← scanWord 128 c.vars.name type.2
  -- `type[14] = '\0'`
  let vars := { c.vars with type := type.1.take 14, name := name.1 }
  if vars.type = internalIfaceType then
    some { c with vars := vars, internalIface := ifNameToIface ifaceList name.1 }
  else if vars.type = externalIfaceType then
    some { c with vars := vars, externalIface := ifNameToIface ifaceList name.1 }
  else some { c with vars := vars }

def u32 (s : List Char) : Option (UInt32 × List Char) :=
  (unsigned s).map fun read => (.ofNat read.1, read.2)

/-- `%hu`. -/
def u16 (s : List Char) : Option (UInt16 × List Char) :=
  (unsigned s).map fun read => (.ofNat read.1, read.2)

/-- The two calls of `sscanf` for an address and a port. -/
def loadAddress (vars : ConfigVars) (text : List Char) : ConfigVars :=
  let name := scan (upTo ':') vars.name (some text)
  let port := scan u16 vars.port (name.2.bind (literal ':'))
  let ip4 := scan u32 vars.ip4 (some name.1)
  let ip3 := scan u32 vars.ip3 (ip4.2.bind (literal '.'))
  let ip2 := scan u32 vars.ip2 (ip3.2.bind (literal '.'))
  let ip1 := scan u32 vars.ip1 (ip2.2.bind (literal '.'))
  { vars with
    name := name.1, port := port.1, ip4 := ip4.1, ip3 := ip3.1, ip2 := ip2.1, ip1 := ip1.1 }

def ConfigVars.ip (vars : ConfigVars) : UInt32 :=
  (vars.ip4 <<< 24) ||| (vars.ip3 <<< 16) ||| (vars.ip2 <<< 8) ||| vars.ip1

/-- A line of the second part. -/
def loadRule (line : List Char) (c : Config) : Option Config := do
  let type ← scanWord 128 c.vars.type (some (cString line))
  let exter ← scanWord 64 c.vars.exter type.2
  let name ← scanWord 128 c.vars.name exter.2
  let inter ← scanWord 64 c.vars.inter name.2
  -- `type[10] = '\0'`
  let vars := { c.vars with
    type := type.1.take 10, exter := exter.1, name := name.1, inter := inter.1 }
  if vars.type = dnatRulesType then
    let external := loadAddress vars vars.exter
    let internal := loadAddress external external.inter
    some { c with
      vars := internal
      rules := c.rules ++ [⟨external.ip, external.port, internal.ip, internal.port⟩] }
  else some { c with vars := vars }

/-- The first loop, and the lines that it leaves. -/
def loadIfaces (ifaceList : List (List Char × Iface)) :
    List (List Char) → Config → Option (Config × List (List Char))
  | [], c => some (c, [])
  | line :: lines, c =>
    if line.head? = some '\n' then some (c, lines)
    else (loadIface ifaceList line c).bind (loadIfaces ifaceList lines)

/-- The second loop. -/
def loadRules : List (List Char) → Config → Option Config
  | [], c => some c
  | line :: lines, c =>
    if line.head? = some '\n' then some c else (loadRule line c).bind (loadRules lines)

/-- `parse_config`, for the text of a file that can be opened. Where a loop ends with the file there
are no lines left. -/
def parseConfig (ifaceList : List (List Char × Iface)) (text : List Char) (c : Config) :
    Option Config :=
  (loadIfaces ifaceList (fgetsLines 256 text) c).bind fun read => loadRules read.2 read.1

/-- `nat_init`; the variables of `parse_config` have any values at first. -/
def natInitFrom (ifaceList : List (List Char × Iface)) (vars : ConfigVars) (text : List Char) :
    Option NatTable :=
  (parseConfig ifaceList text ⟨vars, none, none, []⟩).map fun c =>
    natInit c.internalIface c.externalIface c.rules

end Model

section Text

/-- A byte of an address. -/
def octet (ip shift : UInt32) : UInt32 := (ip >>> shift) &&& 0xff

def dotted (ip : UInt32) : List Char :=
  Nat.toDigits 10 (octet ip 24).toNat ++ '.' :: (Nat.toDigits 10 (octet ip 16).toNat ++
    '.' :: (Nat.toDigits 10 (octet ip 8).toNat ++ '.' :: Nat.toDigits 10 (octet ip 0).toNat))

def addressText (ip : UInt32) (port : UInt16) : List Char :=
  dotted ip ++ ':' :: Nat.toDigits 10 port.toNat

/-- A line of the first part. -/
structure IfaceLine where
  type : List Char
  gap : List Char
  name : List Char
  tail : List Char

def IfaceLine.text (l : IfaceLine) : List Char :=
  l.type ++ (l.gap ++ (l.name ++ (l.tail ++ ['\n'])))

/-- A line of the second part. -/
structure RuleLine where
  type : List Char
  gap : List Char
  rule : DnatRule
  gap' : List Char
  arrow : List Char
  gap'' : List Char
  tail : List Char

def RuleLine.text (l : RuleLine) : List Char :=
  l.type ++ (l.gap ++ (addressText l.rule.externalIp l.rule.externalPort ++ (l.gap' ++ (l.arrow ++
    (l.gap'' ++ (addressText l.rule.internalIp l.rule.internalPort ++ (l.tail ++ ['\n'])))))))

/-- The text of a file with both parts. -/
def configText (ifaces : List IfaceLine) (rules : List RuleLine) : List Char :=
  (ifaces.map IfaceLine.text ++ ['\n'] :: rules.map RuleLine.text).flatten

/-- Spaces and tabs between words. -/
structure IsGap (gap : List Char) : Prop where
  nonempty : gap ≠ []
  blank : ∀ c ∈ gap, c = ' ' ∨ c = '\t'

/-- A word of a line; the text is a string. -/
structure IsToken (size : ℕ) (w : List Char) : Prop where
  word : IsWord w
  string : '\x00' ∉ w
  fits : w.length < size

/-- The rest of a line. -/
structure IsTail (tail : List Char) : Prop where
  stops : Stops (fun c => !isSpace c) tail
  line : '\n' ∉ tail
  string : '\x00' ∉ tail

structure IfaceLine.WellFormed (l : IfaceLine) : Prop where
  type : IsToken 128 l.type
  gap : IsGap l.gap
  name : IsToken 128 l.name
  tail : IsTail l.tail
  fits : l.text.length < 256

structure RuleLine.WellFormed (l : RuleLine) : Prop where
  type : IsToken 128 l.type
  gap : IsGap l.gap
  gap' : IsGap l.gap'
  arrow : IsToken 128 l.arrow
  gap'' : IsGap l.gap''
  tail : IsTail l.tail
  fits : l.text.length < 256

/-- The interface that the last line of a type names. -/
def named (ifaceList : List (List Char × Iface)) (type : List Char) (ifaces : List IfaceLine)
    (start : Option Iface) : Option Iface :=
  ifaces.foldl (fun iface l =>
    if l.type.take 14 = type then ifNameToIface ifaceList l.name else iface) start

/-- The rule of a line, if it is one for a rule. -/
def RuleLine.rule? (l : RuleLine) : Option DnatRule :=
  if l.type.take 10 = dnatRulesType then some l.rule else none

end Text

section Words

variable {w gap rest : List Char} {size : ℕ}

theorem IsGap.isSpace (h : IsGap gap) : ∀ c ∈ gap, isSpace c = true := by
  intro c hc
  rcases h.blank c hc with rfl | rfl <;> rfl

theorem IsGap.notMem (h : IsGap gap) {c : Char} (hne : c ≠ ' ') (hne' : c ≠ '\t') : c ∉ gap :=
  fun hc => (h.blank c hc).elim hne hne'

theorem IsGap.stops (h : IsGap gap) (rest : List Char) :
    Stops (fun c => !Scanf.isSpace c) (gap ++ rest) := by
  cases gap with
  | nil => exact absurd rfl h.nonempty
  | cons c gap => simpa [Stops] using h.isSpace c List.mem_cons_self

theorem IsTail.stops_line {tail : List Char} (h : IsTail tail) :
    Stops (fun c => !Scanf.isSpace c) (tail ++ ['\n']) := by
  cases tail with
  | nil =>
    simp [Stops]
    rfl
  | cons c tail => simpa [Stops] using h.stops c rfl

theorem IsToken.scanWord_eq (h : IsToken size w) (old : List Char)
    (hblank : ∀ c ∈ gap, Scanf.isSpace c = true)
    (hrest : Stops (fun c => !Scanf.isSpace c) rest) :
    scanWord size old (some (gap ++ (w ++ rest))) = some (w, some rest) := by
  rw [scanWord, scan_of_eq_some (h.word.word_eq hblank hrest), if_pos h.fits]

/-- The first word of a line. -/
theorem IsToken.scanWord_first (h : IsToken size w) (old : List Char)
    (hrest : Stops (fun c => !Scanf.isSpace c) rest) :
    scanWord size old (some (w ++ rest)) = some (w, some rest) := by
  have hnil : ∀ c ∈ ([] : List Char), Scanf.isSpace c = true := by simp
  exact h.scanWord_eq old hnil hrest

theorem newline_notMem (h : IsWord w) : '\n' ∉ w := by
  intro hmem
  have hspace := h.nonspace _ hmem
  cases hspace

theorem cString_eq (h : '\x00' ∉ w) : cString w = w := by
  rw [cString, List.takeWhile_eq_self_iff]
  intro c hc
  simpa using fun heq : c = '\x00' => h (heq ▸ hc)

end Words

section Addresses

variable {rest : List Char}

theorem octet_lt (ip shift : UInt32) : (octet ip shift).toNat < 256 := by
  have hle : (octet ip shift).toNat ≤ 255 := by
    simpa [octet] using Nat.and_le_right (n := (ip >>> shift).toNat) (m := 255)
  omega

/-- The bytes of an address make it up. -/
theorem octets_eq (ip : UInt32) : (octet ip 24 <<< 24) ||| (octet ip 16 <<< 16) |||
    (octet ip 8 <<< 8) ||| octet ip 0 = ip := by
  apply UInt32.toBitVec_inj.mp
  apply BitVec.eq_of_getLsbD_eq
  intro i hi
  have hlt : i < 32 := hi
  simp only [octet, UInt32.toBitVec_or, UInt32.toBitVec_shiftLeft, UInt32.toBitVec_shiftRight,
    UInt32.toBitVec_and, BitVec.getLsbD_or]
  interval_cases i <;> simp

theorem stops_isDigit {c : Char} (h : c.isDigit = false) (s : List Char) :
    Stops Char.isDigit (c :: s) := by
  simpa [Stops] using h

theorem u32_toDigits {n : UInt32} (hrest : Stops Char.isDigit rest) :
    u32 (Nat.toDigits 10 n.toNat ++ rest) = some (n, rest) := by
  have hn := n.toNat_lt
  rw [u32, unsigned_toDigits (by omega) hrest]
  simp

theorem u16_toDigits (n : UInt16) : u16 (Nat.toDigits 10 n.toNat) = some (n, []) := by
  have hn := n.toNat_lt
  have hread : unsigned (Nat.toDigits 10 n.toNat ++ []) = some (n.toNat, []) :=
    unsigned_toDigits (by omega) (by simp [Stops])
  rw [List.append_nil] at hread
  simp [u16, hread]

theorem mem_dotted {ip : UInt32} {c : Char} (hc : c ∈ dotted ip) : c.isDigit = true ∨ c = '.' := by
  simp only [dotted, List.mem_append, List.mem_cons] at hc
  rcases hc with hc | rfl | hc | rfl | hc | rfl | hc
  · exact .inl (isDigit_of_mem_toDigits hc)
  · exact .inr rfl
  · exact .inl (isDigit_of_mem_toDigits hc)
  · exact .inr rfl
  · exact .inl (isDigit_of_mem_toDigits hc)
  · exact .inr rfl
  · exact .inl (isDigit_of_mem_toDigits hc)

theorem mem_addressText {ip : UInt32} {port : UInt16} {c : Char} (hc : c ∈ addressText ip port) :
    c.isDigit = true ∨ c = '.' ∨ c = ':' := by
  rcases List.mem_append.mp hc with hc | hc
  · exact (mem_dotted hc).imp_right .inl
  · rcases List.mem_cons.mp hc with rfl | hc
    · exact .inr (.inr rfl)
    · exact .inl (isDigit_of_mem_toDigits hc)

theorem length_addressText (ip : UInt32) (port : UInt16) :
    (addressText ip port).length ≤ 21 := by
  have hoctet (shift : UInt32) : (Nat.toDigits 10 (octet ip shift).toNat).length ≤ 3 := by
    have hlt := octet_lt ip shift
    exact (Nat.length_toDigits_le_iff (by decide) (by decide)).mpr (by omega)
  have hport : (Nat.toDigits 10 port.toNat).length ≤ 5 := by
    have hlt := port.toNat_lt
    exact (Nat.length_toDigits_le_iff (by decide) (by decide)).mpr (by omega)
  have h₃ := hoctet 24
  have h₂ := hoctet 16
  have h₁ := hoctet 8
  have h₀ := hoctet 0
  simp only [addressText, dotted, List.length_append, List.length_cons]
  omega

theorem isToken_addressText (ip : UInt32) (port : UInt16) : IsToken 64 (addressText ip port) := by
  have hall {p : Char → Prop} (hdigit : ∀ c, c.isDigit = true → p c) (hdot : p '.')
      (hcolon : p ':') : ∀ c ∈ addressText ip port, p c := by
    intro c hc
    rcases mem_addressText hc with hc | rfl | rfl
    · exact hdigit c hc
    · exact hdot
    · exact hcolon
  refine ⟨⟨by simp [addressText, dotted], ?_⟩, ?_, ?_⟩
  · exact hall (fun c hc => (sign_of_isDigit (s := []) hc).1) rfl rfl
  · intro hmem
    exact hall (p := fun c => c ≠ '\x00') (fun c hc heq => by subst heq; cases hc) (by decide)
      (by decide) _ hmem rfl
  · have hlength := length_addressText ip port
    omega

/-- An address and a port are read as they were written. -/
theorem loadAddress_addressText (vars : ConfigVars) (ip : UInt32) (port : UInt16) :
    loadAddress vars (addressText ip port) = { vars with
      name := dotted ip, port := port, ip4 := octet ip 24, ip3 := octet ip 16, ip2 := octet ip 8,
      ip1 := octet ip 0 } := by
  have hcolon : ':' ∉ dotted ip := fun hc => by simpa using mem_dotted hc
  have hname : scan (upTo ':') vars.name (some (addressText ip port)) =
      (dotted ip, some (':' :: Nat.toDigits 10 port.toNat)) :=
    scan_of_eq_some (upTo_eq (by simp [dotted]) hcolon) vars.name
  have hport : scan u16 vars.port (some (Nat.toDigits 10 port.toNat)) = (port, some []) :=
    scan_of_eq_some (u16_toDigits port) vars.port
  have hoctet (n : UInt32) (rest : List Char) (old : UInt32) :
      scan u32 old (some (Nat.toDigits 10 n.toNat ++ '.' :: rest)) = (n, some ('.' :: rest)) :=
    scan_of_eq_some (u32_toDigits (stops_isDigit rfl rest)) old
  have hlast (n : UInt32) (old : UInt32) :
      scan u32 old (some (Nat.toDigits 10 n.toNat)) = (n, some []) := by
    refine scan_of_eq_some ?_ old
    have hread : u32 (Nat.toDigits 10 n.toNat ++ []) = some (n, []) :=
      u32_toDigits (by simp [Stops])
    simpa using hread
  simp only [loadAddress, hname, Option.bind_some, literal_cons, hport, dotted, hoctet, hlast]

end Addresses

section Lines

variable {ifaceList : List (List Char × Iface)} {ifaces : List IfaceLine} {rules : List RuleLine}
  {c : Config}

/-- A line that begins with a word is not empty. -/
theorem head?_ne_newline {w : List Char} (h : IsWord w) (rest : List Char) :
    (w ++ rest).head? ≠ some '\n' := by
  cases w with
  | nil => exact absurd rfl h.nonempty
  | cons d w =>
    intro heq
    obtain rfl : d = '\n' := Option.some.inj heq
    exact newline_notMem h List.mem_cons_self

/-- What a line of the first part does. -/
theorem IfaceLine.WellFormed.loadIface_eq {l : IfaceLine} (h : l.WellFormed) :
    loadIface ifaceList l.text c = some
      { vars := { c.vars with type := l.type.take 14, name := l.name }
        internalIface := if l.type.take 14 = internalIfaceType then ifNameToIface ifaceList l.name
          else c.internalIface
        externalIface := if l.type.take 14 = externalIfaceType then ifNameToIface ifaceList l.name
          else c.externalIface
        rules := c.rules } := by
  have hstring : cString l.text = l.text := by
    apply cString_eq
    simp [IfaceLine.text, h.type.string, h.name.string, h.tail.string,
      h.gap.notMem (c := '\x00') (by decide) (by decide)]
  have htype := h.type.scanWord_first c.vars.type
    (h.gap.stops (l.name ++ (l.tail ++ ['\n'])))
  have hname := h.name.scanWord_eq c.vars.name h.gap.isSpace h.tail.stops_line
  rw [loadIface, hstring, IfaceLine.text, htype]
  simp only [Option.bind_eq_bind, Option.bind_some, hname]
  have hother : internalIfaceType ≠ externalIfaceType := by decide
  by_cases hinternal : l.type.take 14 = internalIfaceType
  · simp [hinternal, hother]
  · by_cases hexternal : l.type.take 14 = externalIfaceType
    · simp [hexternal, hother.symm]
    · simp [hinternal, hexternal]

theorem RuleLine.WellFormed.loadRule_eq {l : RuleLine} (h : l.WellFormed) :
    ∃ vars, loadRule l.text c =
      some { c with vars := vars, rules := c.rules ++ l.rule?.toList } := by
  have hexternal := isToken_addressText l.rule.externalIp l.rule.externalPort
  have hinternal := isToken_addressText l.rule.internalIp l.rule.internalPort
  have hstring : cString l.text = l.text := by
    apply cString_eq
    simp [RuleLine.text, h.type.string, h.arrow.string, h.tail.string, hexternal.string,
      hinternal.string, h.gap.notMem (c := '\x00') (by decide) (by decide),
      h.gap'.notMem (c := '\x00') (by decide) (by decide),
      h.gap''.notMem (c := '\x00') (by decide) (by decide)]
  have htype := h.type.scanWord_first c.vars.type (h.gap.stops (addressText l.rule.externalIp
    l.rule.externalPort ++ (l.gap' ++ (l.arrow ++ (l.gap'' ++
      (addressText l.rule.internalIp l.rule.internalPort ++ (l.tail ++ ['\n'])))))))
  have hexter := hexternal.scanWord_eq c.vars.exter h.gap.isSpace (h.gap'.stops (l.arrow ++
    (l.gap'' ++ (addressText l.rule.internalIp l.rule.internalPort ++ (l.tail ++ ['\n'])))))
  have harrow := h.arrow.scanWord_eq c.vars.name h.gap'.isSpace (h.gap''.stops
    (addressText l.rule.internalIp l.rule.internalPort ++ (l.tail ++ ['\n'])))
  have hinter := hinternal.scanWord_eq c.vars.inter h.gap''.isSpace h.tail.stops_line
  rw [loadRule, hstring, RuleLine.text, htype]
  simp only [Option.bind_eq_bind, Option.bind_some, hexter, harrow, hinter, RuleLine.rule?]
  split_ifs
  · simp [loadAddress_addressText, ConfigVars.ip, octets_eq]
  · simp

/-- The lines of the first part up to the empty one. -/
theorem loadIfaces_text (h : ∀ l ∈ ifaces, l.WellFormed) (rest : List (List Char)) :
    ∃ vars, loadIfaces ifaceList (ifaces.map IfaceLine.text ++ ['\n'] :: rest) c = some
      (⟨vars, named ifaceList internalIfaceType ifaces c.internalIface,
        named ifaceList externalIfaceType ifaces c.externalIface, c.rules⟩, rest) := by
  induction ifaces generalizing c with
  | nil => exact ⟨c.vars, by simp [loadIfaces, named]⟩
  | cons l ifaces ih =>
    have hl := h l List.mem_cons_self
    have hne : l.text.head? ≠ some '\n' := head?_ne_newline hl.type.word _
    simp only [List.map_cons, List.cons_append, loadIfaces, if_neg hne, hl.loadIface_eq,
      Option.bind_some]
    exact ih fun l hl => h l (List.mem_cons_of_mem _ hl)

theorem loadRules_text (h : ∀ l ∈ rules, l.WellFormed) : ∃ vars,
    loadRules (rules.map RuleLine.text) c =
      some { c with vars := vars, rules := c.rules ++ rules.filterMap RuleLine.rule? } := by
  induction rules generalizing c with
  | nil => exact ⟨c.vars, by simp [loadRules]⟩
  | cons l rules ih =>
    have hl := h l List.mem_cons_self
    have hne : l.text.head? ≠ some '\n' := head?_ne_newline hl.type.word _
    obtain ⟨vars, hload⟩ := hl.loadRule_eq (c := c)
    obtain ⟨vars', hrest⟩ := ih (fun l hl => h l (List.mem_cons_of_mem _ hl))
      (c := { c with vars := vars, rules := c.rules ++ l.rule?.toList })
    refine ⟨vars', ?_⟩
    rw [List.map_cons, loadRules, if_neg hne, hload, Option.bind_some, hrest]
    cases hrule : l.rule? with
    | none => simp [hrule]
    | some rule => simp [hrule]

theorem IfaceLine.WellFormed.isLine {l : IfaceLine} (h : l.WellFormed) : IsLine 256 l.text := by
  refine ⟨⟨l.type ++ (l.gap ++ (l.name ++ l.tail)), by simp [IfaceLine.text], ?_⟩, h.fits⟩
  simp [newline_notMem h.type.word, newline_notMem h.name.word, h.tail.line,
    h.gap.notMem (c := '\n') (by decide) (by decide)]

theorem RuleLine.WellFormed.isLine {l : RuleLine} (h : l.WellFormed) : IsLine 256 l.text := by
  have hexternal := isToken_addressText l.rule.externalIp l.rule.externalPort
  have hinternal := isToken_addressText l.rule.internalIp l.rule.internalPort
  refine ⟨⟨l.type ++ (l.gap ++ (addressText l.rule.externalIp l.rule.externalPort ++ (l.gap' ++
    (l.arrow ++ (l.gap'' ++ (addressText l.rule.internalIp l.rule.internalPort ++ l.tail)))))),
    by simp [RuleLine.text], ?_⟩, h.fits⟩
  simp [newline_notMem h.type.word, newline_notMem h.arrow.word, newline_notMem hexternal.word,
    newline_notMem hinternal.word, h.tail.line,
    h.gap.notMem (c := '\n') (by decide) (by decide),
    h.gap'.notMem (c := '\n') (by decide) (by decide),
    h.gap''.notMem (c := '\n') (by decide) (by decide)]

/-- The translation starts with the interfaces and the rules that the file says, in the order of
the file, whatever the variables of `parse_config` have been. -/
theorem natInitFrom_configText (hifaces : ∀ l ∈ ifaces, l.WellFormed)
    (hrules : ∀ l ∈ rules, l.WellFormed) (ifaceList : List (List Char × Iface))
    (vars : ConfigVars) :
    natInitFrom ifaceList vars (configText ifaces rules) =
      some (natInit (named ifaceList internalIfaceType ifaces none)
        (named ifaceList externalIfaceType ifaces none) (rules.filterMap RuleLine.rule?)) := by
  have hlines : fgetsLines 256 (configText ifaces rules) =
      ifaces.map IfaceLine.text ++ ['\n'] :: rules.map RuleLine.text := by
    apply fgetsLines_flatten
    intro line hline
    simp only [List.mem_append, List.mem_cons, List.mem_map] at hline
    rcases hline with ⟨l, hl, rfl⟩ | rfl | ⟨l, hl, rfl⟩
    · exact (hifaces l hl).isLine
    · exact ⟨⟨[], rfl, by simp⟩, by decide⟩
    · exact (hrules l hl).isLine
  obtain ⟨vars', hload⟩ : ∃ vars', loadIfaces ifaceList
      (ifaces.map IfaceLine.text ++ ['\n'] :: rules.map RuleLine.text) ⟨vars, none, none, []⟩ =
      some (⟨vars', named ifaceList internalIfaceType ifaces none,
        named ifaceList externalIfaceType ifaces none, []⟩, rules.map RuleLine.text) :=
    loadIfaces_text hifaces _
  obtain ⟨vars'', hrest⟩ := loadRules_text hrules
    (c := ⟨vars', named ifaceList internalIfaceType ifaces none,
      named ifaceList externalIfaceType ifaces none, []⟩)
  rw [natInitFrom, parseConfig, hlines, hload, Option.bind_some, hrest]
  simp

end Lines

section Instance

/-- The file `exp2.conf`. -/
def exp2Ifaces : List IfaceLine :=
  [⟨"internal-iface:".toList, [' '], "n1-eth0".toList, []⟩,
    ⟨"external-iface:".toList, [' '], "n1-eth1".toList, []⟩]

def exp2Rules : List RuleLine :=
  [⟨0x9fe2272b, 8000, 0x0a150001, 8000⟩, ⟨0x9fe2272b, 8001, 0x0a150002, 8000⟩].map fun rule =>
    ⟨"dnat-rules:".toList, [' '], rule, [' '], "->".toList, [' '], []⟩

theorem isGap_space : IsGap [' '] := ⟨by simp, by simp⟩

theorem isTail_nil : IsTail [] := ⟨by simp [Stops], by simp, by simp⟩

/-- A token that is given is checked character by character. -/
theorem isToken_of_all {size : ℕ} {w : List Char} (hne : w ≠ []) (hlen : w.length < size)
    (hall : (w.all fun c => !isSpace c && c != '\x00') = true) : IsToken size w := by
  rw [List.all_eq_true] at hall
  refine ⟨⟨hne, fun c hc => ?_⟩, fun hmem => ?_, hlen⟩
  · simpa using (Bool.and_eq_true_iff.mp (hall c hc)).1
  · simpa using (Bool.and_eq_true_iff.mp (hall _ hmem)).2

theorem exp2Ifaces_wellFormed : ∀ l ∈ exp2Ifaces, l.WellFormed := by
  intro l hl
  simp only [exp2Ifaces, List.mem_cons, List.not_mem_nil, or_false] at hl
  rcases hl with rfl | rfl
  · exact ⟨isToken_of_all (by simp) (by decide) (by decide), isGap_space,
      isToken_of_all (by simp) (by decide) (by decide), isTail_nil, by decide⟩
  · exact ⟨isToken_of_all (by simp) (by decide) (by decide), isGap_space,
      isToken_of_all (by simp) (by decide) (by decide), isTail_nil, by decide⟩

theorem exp2Rules_wellFormed : ∀ l ∈ exp2Rules, l.WellFormed := by
  have htype : IsToken 128 "dnat-rules:".toList :=
    isToken_of_all (by simp) (by decide) (by decide)
  have harrow : IsToken 128 "->".toList := isToken_of_all (by simp) (by decide) (by decide)
  have hfits : ∀ l ∈ exp2Rules, l.text.length < 256 := by decide +kernel
  intro l hl
  have hlen := hfits l hl
  obtain ⟨rule, hrule, rfl⟩ := List.mem_map.mp hl
  exact ⟨htype, isGap_space, isGap_space, harrow, isGap_space, isTail_nil, hlen⟩

theorem natInitFrom_exp2 : natInitFrom [("n1-eth0".toList, ⟨0x0a1500fe⟩),
      ("n1-eth1".toList, ⟨0x9fe2272b⟩)] ⟨[], [], [], [], 0, 0, 0, 0, 0⟩
      ("internal-iface: n1-eth0\nexternal-iface: n1-eth1\n\n" ++
        "dnat-rules: 159.226.39.43:8000 -> 10.21.0.1:8000\n" ++
        "dnat-rules: 159.226.39.43:8001 -> 10.21.0.2:8000\n").toList =
    some (natInit (some ⟨0x0a1500fe⟩) (some ⟨0x9fe2272b⟩)
      [⟨0x9fe2272b, 8000, 0x0a150001, 8000⟩, ⟨0x9fe2272b, 8001, 0x0a150002, 8000⟩]) := by
  have htext : ("internal-iface: n1-eth0\nexternal-iface: n1-eth1\n\n" ++
      "dnat-rules: 159.226.39.43:8000 -> 10.21.0.1:8000\n" ++
      "dnat-rules: 159.226.39.43:8001 -> 10.21.0.2:8000\n").toList =
      configText exp2Ifaces exp2Rules := by decide +kernel
  rw [htext]
  exact natInitFrom_configText exp2Ifaces_wellFormed exp2Rules_wellFormed _ _

end Instance

end NetworkLab.Nat
