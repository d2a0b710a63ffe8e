import IrohWebrtc.Lib.Base64
import IrohWebrtc.Lib.Regex
import IrohWebrtc.Lib.Uri
import IrohWebrtc.Signaling
import Mathlib.Algebra.Group.Nat.Defs
import Mathlib.Data.List.DropRight

/-!
# Compact session descriptions

`packSdp` and `unpackSdp` of the chat page (`chat.js`), which make a link of a
session description: what varies of it is packed, and a description is rebuilt
around this. Strings are lists of characters, as no pattern parts the two halves
of a surrogate pair. What is packed is a list of code points, as it may have the first
half of a pair in it (`charAt0`). What throws is `none`.
-/

namespace IrohWebrtc

open Uri (CodePoint)

abbrev Str := List Char

/-- A value in a template. -/
def template (v : Option Str) : Str := v.getD "undefined".toList

/-- The code points of a string that has no halves of surrogate pairs. -/
def codePoints (s : Str) : List CodePoint := s.map .char

/-- `s[0]` in a template: half of a character that takes two code units. -/
def charAt0 : Str → List CodePoint
  | [] => codePoints (template none)
  | c :: _ =>
    if c.toNat < 0x10000 then [.char c]
    else [.surrogate (.ofNat 2048 ((c.toNat - 0x10000) / 0x400))]

/-- A number in a template. -/
def decimal (z : ℤ) : Str := (toString z).toList

structure Description where
  type : SdpType
  sdp : Str
  deriving DecidableEq

/-! ## Patterns -/

/-- How a pattern of ASCII compares characters, with the flag `i` or without. -/
def canonicalize (i : Bool) (c : Char) : Char := if i then c.toUpper else c

/-- `\s` -/
def isSpace (c : Char) : Bool :=
  c ∈ ['\t', '\n', '\x0b', '\x0c', '\r', ' ', '\u00a0', '\u1680', '\u2028', '\u2029', '\u202f',
    '\u205f', '\u3000', '\ufeff'] || '\u2000' ≤ c && c ≤ '\u200a'

/-- `\S` -/
def nonspace (c : Char) : Bool := !isSpace c

/-- `[0-9A-Fa-f]` -/
def isHex (c : Char) : Bool := c ∈ "0123456789ABCDEFabcdef".toList

/-- What `packSdp` looks for, apart from candidates: an attribute and its value. -/
def attributeRe (name : Str) (p : Char → Bool) : Regex Char :=
  .cat [.lit name, .capture 1 (.plus p)]

/-- The pattern of candidates, ignoring case. -/
def candidateRe : Regex Char :=
  .cat [.lit "a=candidate:".toList, .plus nonspace, .lit [' '], .plus Char.isDigit,
    .lit " udp ".toList, .plus Char.isDigit, .lit [' '], .capture 1 (.plus nonspace),
    .lit [' '], .capture 2 (.plus Char.isDigit), .lit " typ ".toList,
    .capture 3 (.plus nonspace),
    .opt (.cat [.lit " raddr ".toList, .capture 4 (.plus nonspace), .lit " rport ".toList,
      .capture 5 (.plus Char.isDigit)])]

/-! ## Fingerprints -/

/-- `s.replace(/a/g, b)` -/
def replaceAll (a b : Char) (s : Str) : Str := s.map fun c => if c = a then b else c

/-- `btoa`, which throws at what is no byte. -/
def btoa (codes : List ℕ) : Option Str :=
  if codes.all (· < 256) then some (Base64.encode (codes.map .ofNat)) else none

def b64u (codes : List ℕ) : Option Str :=
  (btoa codes).map fun s => (replaceAll '/' '_' (replaceAll '+' '-' s)).rdropWhile (· = '=')

def unb64u (s : Str) : Option (List UInt8) :=
  Base64.decode (replaceAll '_' '/' (replaceAll '-' '+' s))

def hexValue (c : Char) : ℕ := if c.isDigit then c.toNat - 48 else c.toUpper.toNat - 55

/-- The double next to a natural number, the even one of two. -/
def toDouble (n : ℕ) : ℕ :=
  let ulp := 2 ^ (n.log2 - 52)
  let q := n / ulp
  ulp * if ulp < 2 * (n % ulp) ∨ ulp = 2 * (n % ulp) ∧ q % 2 = 1 then q + 1 else q

/-- The character code of `parseInt(h, 16)`, for the digits between two colons. When
    there are none this is `NaN`, and when there are too many it is infinite: the code
    is 0. -/
def hexCode (h : Str) : ℕ := toDouble (h.foldl (fun n c => 16 * n + hexValue c) 0) % 65536

def fpToB64 (hex : Str) : Option Str := b64u ((hex.splitOn ':').map hexCode)

def b64ToFp (b : Str) : Option Str :=
  (unb64u b).map fun l => [':'].intercalate
    (l.map fun x => ((Nat.toDigits 16 x.toNat).leftpad 2 '0').map Char.toUpper)

/-! ## Packing -/

/-- The value an attribute has first. -/
def g (i : Bool) (re : Regex Char) (s : Str) : Str :=
  ((re.search (canonicalize i) s).bind (·.lookup 1)).getD []

/-- What is packed of a candidate. -/
def packCandidate (m : Captures Char) : List CodePoint :=
  let group i := codePoints (template (m.lookup i))
  if m.lookup 3 = some "host".toList then
    [.char ','].intercalate [group 1, group 2]
  else
    [.char ','].intercalate [group 1, group 2, charAt0 (template (m.lookup 3)), group 4, group 5]

def packSdp (desc : Description) : Option (List CodePoint) :=
  let s := desc.sdp
  let cands := (candidateRe.matchAll (canonicalize true) s).map packCandidate
  let setup := g false (attributeRe "a=setup:".toList nonspace) s
  (fpToB64 (g true (attributeRe "a=fingerprint:sha-256 ".toList fun c => isHex c || c = ':') s)).map
    fun fp => [.char '~'].intercalate [
      codePoints (if desc.type = .offer then ['o'] else ['a']),
      codePoints (if setup = "actpass".toList then ['A']
        else if setup = "active".toList then ['a'] else ['p']),
      codePoints (g false (attributeRe "a=ice-ufrag:".toList nonspace) s),
      codePoints (g false (attributeRe "a=ice-pwd:".toList nonspace) s),
      codePoints fp,
      [.char ';'].intercalate cands]

/-! ## Unpacking -/

/-- The functions that an object inherits. -/
def inheritedFunctions : List Str := [
  "toString".toList, "toLocaleString".toList, "valueOf".toList, "hasOwnProperty".toList,
  "isPrototypeOf".toList, "propertyIsEnumerable".toList, "__defineGetter__".toList,
  "__defineSetter__".toList, "__lookupGetter__".toList, "__lookupSetter__".toList]

/-- What an object inherits under a name, in a template. -/
def inherited (name : Str) : Option Str :=
  if name = "__proto__".toList then some "[object Object]".toList
  else if name = "constructor".toList then some "function Object() \x7b [native code] \x7d".toList
  else if inheritedFunctions.any (· = name) then
    some ("function ".toList ++ name ++ "() \x7b [native code] \x7d".toList)
  else none

def expand (c : Option Str) : Str :=
  if c = some ['h'] then "host".toList
  else if c = some ['s'] then "srflx".toList
  else if c = some ['r'] then "relay".toList
  else (c.bind inherited).getD "host".toList

/-- The `i`-th candidate, of which `p` has been packed. -/
def unpackCandidate (i : ℕ) (p : List Str) : Str :=
  if p.length = 2 then
    "a=candidate:".toList ++ decimal i ++ " 1 udp ".toList ++ decimal (2122252543 - i) ++
      " ".toList ++ template p[0]? ++ " ".toList ++ template p[1]? ++ " typ host".toList
  else
    "a=candidate:".toList ++ decimal i ++ " 1 udp ".toList ++ decimal (1686052607 - i) ++
      " ".toList ++ template p[0]? ++ " ".toList ++ template p[1]? ++ " typ ".toList ++
      expand p[2]? ++ " raddr ".toList ++ template p[3]? ++ " rport ".toList ++ template p[4]?

def crlf : Str := "\r\n".toList

def unpackSdp (packed : Str) : Option Description :=
  let fields := packed.splitOn '~'
  let setup := if fields[1]? = some ['A'] then "actpass".toList
    else if fields[1]? = some ['a'] then "active".toList else "passive".toList
  let cands := match fields[5]? with
    | none | some [] => []
    | some candStr => (candStr.splitOn ';').mapIdx fun i c => unpackCandidate i (c.splitOn ',')
  (fields[4]?.bind b64ToFp).map fun fp =>
    let lines := [
      "v=0".toList, "o=- 0 0 IN IP4 0.0.0.0".toList, "s=-".toList, "t=0 0".toList,
      "a=group:BUNDLE 0".toList, "a=msid-semantic: WMS".toList,
      "m=application 9 UDP/DTLS/SCTP webrtc-datachannel".toList, "c=IN IP4 0.0.0.0".toList,
      "a=ice-ufrag:".toList ++ template fields[2]?, "a=ice-pwd:".toList ++ template fields[3]?,
      "a=fingerprint:sha-256 ".toList ++ fp, "a=setup:".toList ++ setup, "a=mid:0".toList,
      "a=sctp-port:5000".toList, "a=max-message-size:262144".toList] ++ cands
    ⟨if fields[0]? = some ['o'] then .offer else .answer, crlf.intercalate lines ++ crlf⟩

end IrohWebrtc
