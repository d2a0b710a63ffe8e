import IrohWebrtc.Sdp

/-!
# The lines of a session description

The lines of which `packSdp` makes a link: those of an attribute it looks for, and
others. A line is an attribute and words with spaces between them
(`SdpLine.text`). No word has an attribute in it where this would be found before its
own line, nor a candidate where one is looked for (`PlainLines`), so that an attribute is found
at the beginning of its lines (`clear_line`, `clear_rest`). The patterns of the fingerprint
and of candidates ignore case, if `i` is true, and then so does what is meant by having one
of these in it.
-/

namespace IrohWebrtc

/-- Texts of one or more characters of a class. -/
abbrev Token (p : Char → Bool) := { v : Str // v ≠ [] ∧ ∀ c ∈ v, p c }

/-- The alphabet of ICE. -/
def isIce (c : Char) : Bool := c.isAlphanum || c = '+' || c = '/'

/-- The characters of addresses: neither spaces nor what `packSdp` puts between fields. -/
def isAddress (c : Char) : Bool := nonspace c && c ∉ [',', ';', '~']

abbrev HexByte := { b : Char × Char // isHex b.1 ∧ isHex b.2 }

abbrev Fingerprint := { l : List HexByte // l ≠ [] }

def Fingerprint.text (f : Fingerprint) : Str :=
  [':'].intercalate (f.1.map fun b => [b.1.1, b.1.2])

inductive Setup
  | actpass
  | active
  | passive
  deriving DecidableEq

def Setup.name : Setup → String
  | .actpass => "actpass"
  | .active => "active"
  | .passive => "passive"

def Setup.text (v : Setup) : Str := v.name.toList

/-- The type of a candidate, with the related address of a type that has one. -/
inductive Typ
  | host
  | srflx (raddr : Token isAddress) (rport : Token Char.isDigit)
  | relay (raddr : Token isAddress) (rport : Token Char.isDigit)
  deriving DecidableEq

def Typ.words : Typ → List Str
  | .host => ["host".toList]
  | .srflx raddr rport => ["srflx".toList, "raddr".toList, raddr, "rport".toList, rport]
  | .relay raddr rport => ["relay".toList, "raddr".toList, raddr, "rport".toList, rport]

structure UdpCandidate where
  address : Token isAddress
  port : Token Char.isDigit
  typ : Typ
  deriving DecidableEq

/-- The attributes `packSdp` looks for. -/
inductive Attribute
  | ufrag
  | pwd
  | fingerprint
  | setup
  | candidate
  deriving DecidableEq

def Attribute.name : Attribute → String
  | .ufrag => "a=ice-ufrag:"
  | .pwd => "a=ice-pwd:"
  | .fingerprint => "a=fingerprint:sha-256"
  | .setup => "a=setup:"
  | .candidate => "a=candidate:"

def Attribute.text (a : Attribute) : Str := a.name.toList

/-- Whether an attribute is looked for ignoring case. -/
def Attribute.flag (i : Bool) : Attribute → Bool
  | .ufrag | .pwd | .setup => false
  | .fingerprint | .candidate => i

/-- A text without an attribute in it. -/
def Lacks (i : Bool) (a : Attribute) (s : Str) : Prop :=
  ¬ a.text.map (canonicalize (a.flag i)) <:+: s.map (canonicalize (a.flag i))

/-- Texts without spaces. -/
abbrev Word := { w : Str // ' ' ∉ w }

inductive Transport
  | udp
  | tcp

/-- The names of a transport, in any case. -/
def Transport.Names : Transport → Str → Prop
  | .udp, t => t.map Char.toUpper = "UDP".toList
  | .tcp, t => t.map Char.toUpper = "TCP".toList

abbrev TransportName (p : Transport) := { t : Str // p.Names t }

inductive SdpLine
  | ufrag (v : Token isIce)
  | pwd (v : Token isIce)
  | fingerprint (v : Fingerprint)
  | setup (v : Setup)
  /-- A candidate of component 1 over UDP. -/
  | udp (foundation : Token nonspace) (transport : TransportName .udp)
    (priority : Token Char.isDigit) (c : UdpCandidate) (extensions : List Word)
  | tcp (foundation : Token nonspace) (component : Token Char.isDigit)
    (transport : TransportName .tcp) (rest : List Word)
  | other (text : Str)

namespace SdpLine

def kind : SdpLine → Option Attribute
  | .ufrag _ => some .ufrag
  | .pwd _ => some .pwd
  | .fingerprint _ => some .fingerprint
  | .setup _ => some .setup
  | .udp .. | .tcp .. => some .candidate
  | .other _ => none

/-- The words of a line after its attribute. -/
def words : SdpLine → List Str
  | .ufrag v | .pwd v => [v]
  | .fingerprint v => [[], v.text]
  | .setup v => [v.text]
  | .udp foundation transport priority c extensions =>
    [foundation.1, ['1'], transport.1, priority.1, c.address.1, c.port.1, "typ".toList] ++
      c.typ.words ++ extensions.map (·.1)
  | .tcp foundation component transport rest =>
    [foundation.1, component.1, transport.1] ++ rest.map (·.1)
  | .other text => [text]

def text (l : SdpLine) : Str := (l.kind.elim [] (·.text)) ++ [' '].intercalate l.words

/-- There is no attribute in a line of none, no candidate in what follows one or in one over
    TCP, and no related address in one of type host. -/
def Plain (i : Bool) : SdpLine → Prop
  | .other text => ∀ a, Lacks i a text
  | .udp _ _ _ c extensions => (∀ w ∈ extensions, Lacks i .candidate w.1) ∧
    (c.typ = .host → ∀ w ∈ extensions.head?, w.1.map Char.toUpper ≠ "RADDR".toList)
  | .tcp foundation _ _ rest =>
    Lacks i .candidate foundation.1 ∧ ∀ w ∈ rest, Lacks i .candidate w.1
  | .ufrag _ | .pwd _ | .fingerprint _ | .setup _ => True

def ufrag? : SdpLine → Option (Token isIce)
  | .ufrag v => some v
  | _ => none

def pwd? : SdpLine → Option (Token isIce)
  | .pwd v => some v
  | _ => none

def fingerprint? : SdpLine → Option Fingerprint
  | .fingerprint v => some v
  | _ => none

def setup? : SdpLine → Option Setup
  | .setup v => some v
  | _ => none

def candidate? : SdpLine → Option UdpCandidate
  | .udp _ _ _ c _ => some c
  | _ => none

end SdpLine

/-- Lines that are plain, none with an attribute in a word before the attribute's own line.
    Candidates have lines everywhere. -/
structure PlainLines (i : Bool) (lines : List SdpLine) : Prop where
  line : ∀ l ∈ lines, l.Plain i
  before : ∀ a ≠ .candidate, ∀ l ∈ lines.takeWhile fun l => l.kind ≠ some a, ∀ w ∈ l.words,
    Lacks i a w

/-- The text of lines, each with its end. -/
def render (lines : List SdpLine) : Str := lines.flatMap fun l => l.text ++ crlf

/-- What a description says. -/
structure SessionData where
  ufrag : Token isIce
  pwd : Token isIce
  fingerprint : Fingerprint
  setup : Setup
  candidates : List UdpCandidate

/-- Lines with exactly one of each attribute, and candidates. -/
structure Says (lines : List SdpLine) (x : SessionData) : Prop where
  ufrag : lines.filterMap (·.ufrag?) = [x.ufrag]
  pwd : lines.filterMap (·.pwd?) = [x.pwd]
  fingerprint : lines.filterMap (·.fingerprint?) = [x.fingerprint]
  setup : lines.filterMap (·.setup?) = [x.setup]
  candidates : lines.filterMap (·.candidate?) = x.candidates

variable {i : Bool} {a b : Attribute} {s t u w : Str} {c d z : Char} {l : SdpLine}
  {ws : List Str} {lines : List SdpLine}

/-! ## Characters and cases -/

theorem toNat_toUpper (h : 97 ≤ c.toNat ∧ c.toNat ≤ 122) : c.toUpper.toNat = c.toNat - 32 := by
  delta Char.toUpper
  rw [dif_pos (show 'a'.val ≤ c.val ∧ c.val ≤ 'z'.val from h)]
  have hdiff : ('A'.val - 'a'.val).toNat = 4294967264 := by decide
  change (c.val + ('A'.val - 'a'.val)).toNat = c.val.toNat - 32
  change 97 ≤ c.val.toNat ∧ c.val.toNat ≤ 122 at h
  rw [UInt32.toNat_add, hdiff]
  omega

/-- Only letters are compared as equal to others. -/
theorem eq_of_canonicalize (hd : ¬ d.isUpper) (h : canonicalize i c = d) : c = d := by
  cases i with
  | false => exact h
  | true =>
    change c.toUpper = d at h
    by_cases hc : 97 ≤ c.toNat ∧ c.toNat ≤ 122
    · refine absurd ?_ hd
      have hupper := toNat_toUpper hc
      rw [h] at hupper
      refine decide_eq_true (show 65 ≤ d.toNat ∧ d.toNat ≤ 90 from ?_)
      omega
    · have hself : c.toUpper = c := dif_neg hc
      exact hself.symm.trans h

/-! ## Where attributes start -/

theorem lacks_of_not_mem (h : '=' ∉ s) : Lacks i a s := by
  intro hinf
  have hmem : '=' ∈ a.text.map (canonicalize (a.flag i)) := by
    cases i <;> cases a <;> decide
  obtain ⟨c, hc, heq⟩ := List.mem_map.1 (hinf.subset hmem)
  obtain rfl := eq_of_canonicalize (by decide) heq
  exact h hc

/-- An attribute does not reach over spaces and ends of lines. -/
theorem Lacks.clear_concat (h : Lacks i a s) (hz : z ∈ [' ', '\r', '\n']) :
    Regex.Clear (canonicalize (a.flag i)) a.text (s ++ [z]) := by
  refine Regex.clear_concat h ?_
  simp only [List.mem_cons, List.not_mem_nil, or_false] at hz
  rcases hz with rfl | rfl | rfl <;> cases i <;> cases a <;> decide

theorem clear_words (h : ∀ w ∈ ws, Lacks i a w) :
    Regex.Clear (canonicalize (a.flag i)) a.text ([' '].intercalate ws ++ crlf) := by
  have hnil : Lacks i a [] := lacks_of_not_mem List.not_mem_nil
  have hlast : ∀ w, Lacks i a w → Regex.Clear (canonicalize (a.flag i)) a.text (w ++ crlf) := by
    intro w hw
    rw [show w ++ crlf = (w ++ ['\r']) ++ ([] ++ ['\n']) by simp [crlf]]
    exact (hw.clear_concat (by simp)).append (hnil.clear_concat (by simp))
  induction ws with
  | nil => exact hlast [] hnil
  | cons w ws ih =>
    have hw := h w List.mem_cons_self
    cases ws with
    | nil =>
      rw [List.intercalate_singleton]
      exact hlast w hw
    | cons w' ws =>
      rw [List.intercalate_cons_cons, List.append_assoc]
      exact (hw.clear_concat (by simp)).append (ih fun w hw => h w (List.mem_cons_of_mem _ hw))

/-- An attribute does not start in one after its beginning. -/
theorem clear_tail : Regex.Clear (canonicalize (a.flag i)) a.text b.text.tail := by
  refine Regex.clear_of_clears ?_
  cases i <;> cases a <;> cases b <;> decide

theorem clear_of_ne (h : a ≠ b) : Regex.Clear (canonicalize (a.flag i)) a.text b.text := by
  refine Regex.clear_of_clears ?_
  cases i <;> cases a <;> cases b <;> first | exact absurd rfl h | decide

/-- In a line of another attribute, or of none, an attribute does not start. -/
theorem clear_line (hl : ∀ w ∈ l.words, Lacks i a w) (h : l.kind ≠ some a) :
    Regex.Clear (canonicalize (a.flag i)) a.text (l.text ++ crlf) := by
  rw [SdpLine.text, List.append_assoc]
  refine Regex.Clear.append ?_ (clear_words hl)
  cases hk : l.kind with
  | none => trivial
  | some b =>
    refine clear_of_ne ?_
    rintro rfl
    exact h hk

/-- In the lines of an attribute, it starts at the beginning only. -/
theorem clear_rest (hl : ∀ w ∈ l.words, Lacks i a w) : Regex.Clear (canonicalize (a.flag i)) a.text
    (b.text.tail ++ ([' '].intercalate l.words ++ crlf)) :=
  clear_tail.append (clear_words hl)

theorem clear_render (hp : ∀ l ∈ lines, ∀ w ∈ l.words, Lacks i a w)
    (h : ∀ l ∈ lines, l.kind ≠ some a) :
    Regex.Clear (canonicalize (a.flag i)) a.text (render lines) := by
  induction lines with
  | nil => trivial
  | cons l lines ih =>
    rw [render, List.flatMap_cons]
    exact (clear_line (hp l List.mem_cons_self) (h l List.mem_cons_self)).append
      (ih (fun l hl => hp l (List.mem_cons_of_mem _ hl)) fun l hl => h l (List.mem_cons_of_mem _ hl))

/-! ## What is found -/

/-- The first line of an attribute has the value that is found. -/
theorem g_render {l₁ l₂ : List SdpLine} {name v : Str} {p : Char → Bool}
    (hp : PlainLines i lines) (heq : lines = l₁ ++ l :: l₂) (ha : a ≠ .candidate)
    (h : ∀ l ∈ l₁, l.kind ≠ some a) (hname : a.text <+: name) (htext : l.text = name ++ v)
    (hne : v ≠ []) (hv : ∀ c ∈ v, p c) (hcr : ¬ p '\r') :
    g (a.flag i) (attributeRe name p) (render lines) = v := by
  have hbefore : ∀ l ∈ l₁, ∀ w ∈ l.words, Lacks i a w := by
    intro l hl
    refine hp.before a ha l ?_
    rw [heq, List.takeWhile_append_of_pos fun l hl => decide_eq_true (h l hl)]
    exact List.mem_append_left _ hl
  have hclear := clear_render hbefore h
  have hmatch : (attributeRe name p).matchHere (canonicalize (a.flag i))
      (name ++ (v ++ (crlf ++ render l₂))) = some ([(1, v)], crlf ++ render l₂) := by
    rw [Regex.matchHere, attributeRe, Regex.exec_cat_cons, Regex.exec_lit_self,
      Regex.exec_cat_cons]
    refine Regex.exec_capture_greedy hne hv ?_ rfl
    rintro c hc
    obtain rfl : '\r' = c := by simpa [crlf] using hc
    exact hcr
  have hrender : render lines = render l₁ ++ (name ++ (v ++ (crlf ++ render l₂))) := by
    simp [heq, render, htext]
  rw [g, hrender, attributeRe, Regex.search_append (hclear.of_prefix hname), ← attributeRe,
    Regex.search_of_matchHere hmatch]
  rfl

section Fields

variable {p : Char → Bool} {v : Token p} {l : List (Regex Char)} {m : Captures Char} {n : ℕ}
  {β : Type*} {k : Captures Char → Str → Option β}

/-- What begins with a space does not match in the middle of a field. -/
theorem exec_cat_space (hp : ¬ p ' ') (ht : t.head? = some ' ') (hc : p c) :
    (Regex.cat (.lit t :: l)).exec (canonicalize i) m (c :: s) k = none := by
  obtain ⟨t, rfl⟩ := List.head?_eq_some_iff.1 ht
  rw [Regex.exec_cat_cons]
  refine Regex.exec_lit_of_not_starts fun hs => ?_
  rw [Regex.Starts, List.map_cons, List.map_cons, List.cons_prefix_cons] at hs
  have hspace : canonicalize i ' ' = ' ' := by cases i <;> rfl
  obtain rfl := eq_of_canonicalize (by decide) (hs.1.symm.trans hspace)
  exact hp hc

theorem not_of_head? (hp : ¬ p ' ') (hs : s.head? = some ' ') : ∀ c ∈ s.head?, ¬ p c := by
  rw [hs]
  rintro c ⟨⟩
  exact hp

/-- A field with a space after it. -/
theorem exec_field (hp : ¬ p ' ') (ht : t.head? = some ' ') (hs : s.head? = some ' ') :
    (Regex.cat (.plus p :: .lit t :: l)).exec (canonicalize i) m (v.1 ++ s) k =
      (Regex.cat (.lit t :: l)).exec (canonicalize i) m s k := by
  rw [Regex.exec_cat_cons]
  exact Regex.exec_plus_of_stops v.2.1 v.2.2 (not_of_head? hp hs)
    fun _ _ _ hc => exec_cat_space hp ht hc

theorem exec_capture_field (hp : ¬ p ' ') (ht : t.head? = some ' ') (hs : s.head? = some ' ') :
    (Regex.cat (.capture n (.plus p) :: .lit t :: l)).exec (canonicalize i) m (v.1 ++ s) k =
      (Regex.cat (.lit t :: l)).exec (canonicalize i) ((n, v.1) :: m) s k := by
  rw [Regex.exec_cat_cons]
  exact Regex.exec_capture_of_stops v.2.1 v.2.2 (not_of_head? hp hs)
    fun _ _ _ hc => exec_cat_space hp ht hc

end Fields

end IrohWebrtc
