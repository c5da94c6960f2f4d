import Ocpe.Lib.Json
import Mathlib.Data.List.TakeWhile
import Mathlib.Tactic.Ring

/-!
# JSON text

A printer and a parser for `Json`, and the proof that they form a `JsonFormat`:
`jsonText`.  The printer writes no white space, keeps a string's bytes as they are
except for quotes, backslashes and control characters, and refuses a string that
is not UTF-8.  The parser takes white space between tokens, all escapes
including surrogate pairs, and numbers with fractions and exponents.

The round trip goes token by token: `parseBody_escape` for strings,
`parseNumber_decimal` for integers.  For whole values the parser counts its calls
down, and `readsBack` says that one call for each printed byte is enough.
-/

namespace Ocpe.Lib

namespace JsonText

abbrev quote : UInt8 := 34
abbrev backslash : UInt8 := 92
abbrev comma : UInt8 := 44
abbrev colon : UInt8 := 58
abbrev openBracket : UInt8 := 91
abbrev closeBracket : UInt8 := 93
abbrev openBrace : UInt8 := 123
abbrev closeBrace : UInt8 := 125

/-! ### Strings -/

def hexDigit (n : UInt8) : UInt8 := if n < 10 then 48 + n else 87 + n

def hexValue (b : UInt8) : Option Nat :=
  if 48 ≤ b ∧ b ≤ 57 then some (b.toNat - 48)
  else if 97 ≤ b ∧ b ≤ 102 then some (b.toNat - 87)
  else if 65 ≤ b ∧ b ≤ 70 then some (b.toNat - 55)
  else none

def hex4 (a b c d : UInt8) : Option Nat := do
  return ((← hexValue a) * 16 + (← hexValue b)) * 256 + (← hexValue c) * 16 + (← hexValue d)

/-- The letter after the backslash and the byte it stands for. -/
def simpleEscape (c : UInt8) : Option UInt8 :=
  if c = quote ∨ c = backslash ∨ c = 47 then some c
  else if c = 98 then some 8
  else if c = 102 then some 12
  else if c = 110 then some 10
  else if c = 114 then some 13
  else if c = 116 then some 9
  else none

def escapeByte (b : UInt8) : Bytes :=
  if b = quote ∨ b = backslash then [backslash, b]
  else if b = 8 then [backslash, 98]
  else if b = 12 then [backslash, 102]
  else if b = 10 then [backslash, 110]
  else if b = 13 then [backslash, 114]
  else if b = 9 then [backslash, 116]
  else if b < 32 then [backslash, 117, 48, 48, hexDigit (b / 16), hexDigit (b % 16)]
  else [b]

def printString (s : Bytes) : Bytes := quote :: (s.flatMap escapeByte ++ [quote])

def encodeUtf8 (c : Nat) : Bytes :=
  if c < 0x80 then [UInt8.ofNat c]
  else if c < 0x800 then [UInt8.ofNat (0xC0 + c / 64), UInt8.ofNat (0x80 + c % 64)]
  else if c < 0x10000 then
    [UInt8.ofNat (0xE0 + c / 4096), UInt8.ofNat (0x80 + c / 64 % 64), UInt8.ofNat (0x80 + c % 64)]
  else
    [UInt8.ofNat (0xF0 + c / 262144), UInt8.ofNat (0x80 + c / 4096 % 64),
      UInt8.ofNat (0x80 + c / 64 % 64), UInt8.ofNat (0x80 + c % 64)]

/-- The four digits of `\u`, and those of the low surrogate after a high one. -/
def parseUnicode : Bytes → Option (Bytes × Bytes)
  | h1 :: h2 :: h3 :: h4 :: r =>
    match hex4 h1 h2 h3 h4 with
    | none => none
    | some hi =>
      if hi < 0xD800 ∨ 0xDFFF < hi then some (encodeUtf8 hi, r)
      else if 0xDC00 ≤ hi then none
      else
        match r with
        | x :: y :: l1 :: l2 :: l3 :: l4 :: r =>
          match if x = backslash ∧ y = 117 then hex4 l1 l2 l3 l4 else none with
          | none => none
          | some lo =>
            if 0xDC00 ≤ lo ∧ lo ≤ 0xDFFF then
              some (encodeUtf8 (0x10000 + (hi - 0xD800) * 1024 + (lo - 0xDC00)), r)
            else none
        | _ => none
  | _ => none

def parseEscape : Bytes → Option (Bytes × Bytes)
  | [] => none
  | c :: r =>
    match simpleEscape c with
    | some d => some ([d], r)
    | none => if c = 117 then parseUnicode r else none

/-- One character of a string, its first byte already taken. -/
def parseChar (b : UInt8) (r : Bytes) : Option (Bytes × Bytes) :=
  if b = backslash then parseEscape r else if b < 32 then none else some ([b], r)

/-- A string from behind its opening quote, of at most `n` characters and the
closing quote. -/
def parseBody : Nat → Bytes → Option (Bytes × Bytes)
  | n + 1, b :: r =>
    if b = quote then some ([], r)
    else
      match parseChar b r with
      | none => none
      | some (cs, r) => (parseBody n r).map fun p => (cs ++ p.1, p.2)
  | _, _ => none

def parseString (s : Bytes) : Option (Bytes × Bytes) :=
  match parseBody s.length s with
  | some (t, r) => if ValidUtf8 t then some (t, r) else none
  | none => none

theorem hexValue_hexDigit {n : UInt8} (h : n < 16) : hexValue (hexDigit n) = some n.toNat := by
  have key : ∀ k < 16, hexValue (hexDigit (UInt8.ofNat k)) = some k := by decide
  have := key n.toNat (by simpa [UInt8.lt_iff_toNat_lt] using h)
  rwa [UInt8.ofNat_toNat] at this

theorem hex4_control (b : UInt8) :
    hex4 48 48 (hexDigit (b / 16)) (hexDigit (b % 16)) = some b.toNat := by
  have hb := b.toNat_lt
  have h1 : b / 16 < 16 := by
    rw [UInt8.lt_iff_toNat_lt, UInt8.toNat_div]
    simp; omega
  have h2 : b % 16 < 16 := by
    rw [UInt8.lt_iff_toNat_lt, UInt8.toNat_mod]
    simp; omega
  rw [hex4, hexValue_hexDigit h1, hexValue_hexDigit h2]
  simp [show hexValue 48 = some 0 from rfl]
  omega

theorem parseUnicode_control {b : UInt8} (h : b < 32) (r : Bytes) :
    parseUnicode (48 :: 48 :: hexDigit (b / 16) :: hexDigit (b % 16) :: r) = some ([b], r) := by
  have hb : b.toNat < 32 := by simpa [UInt8.lt_iff_toNat_lt] using h
  simp only [parseUnicode, hex4_control]
  rw [if_pos (by omega), encodeUtf8, if_pos (by omega), UInt8.ofNat_toNat]

/-- One escaped byte starts with something other than a quote and is read back as
that byte. -/
theorem parseChar_escapeByte (b : UInt8) (r : Bytes) :
    ∃ c t, escapeByte b ++ r = c :: t ∧ c ≠ quote ∧ parseChar c t = some ([b], r) := by
  unfold escapeByte
  split
  · next h =>
    exact ⟨_, _, rfl, by decide, by rcases h with rfl | rfl <;> rfl⟩
  next h0 =>
  rw [not_or] at h0
  iterate 5
    split
    · next h => subst h; exact ⟨_, _, rfl, by decide, rfl⟩
  split
  · next h => exact ⟨_, _, rfl, by decide, parseUnicode_control h r⟩
  · next h => exact ⟨_, _, rfl, h0.1, by rw [parseChar, if_neg h0.2, if_neg h]; rfl⟩

theorem parseBody_escape (s r : Bytes) {n : Nat} (h : s.length < n) :
    parseBody n (s.flatMap escapeByte ++ quote :: r) = some (s, r) := by
  induction s generalizing n with
  | nil =>
    obtain ⟨n, rfl⟩ : ∃ k, n = k + 1 := ⟨n - 1, by simp at h; omega⟩
    rfl
  | cons b s ih =>
    obtain ⟨n, rfl⟩ : ∃ k, n = k + 1 := ⟨n - 1, by simp at h; omega⟩
    obtain ⟨c, t, ht, hc, hp⟩ := parseChar_escapeByte b (s.flatMap escapeByte ++ quote :: r)
    rw [List.flatMap_cons, List.append_assoc, ht, parseBody, if_neg hc, hp]
    simp only [ih (show s.length < n by simpa using h)]
    rfl

theorem length_le_flatMap_escapeByte (s : Bytes) : s.length ≤ (s.flatMap escapeByte).length := by
  induction s with
  | nil => simp
  | cons b s ih =>
    have hb : 1 ≤ (escapeByte b).length := by
      obtain ⟨c, t, ht, -⟩ := parseChar_escapeByte b []
      have := congrArg List.length ht
      simp at this; omega
    rw [List.flatMap_cons, List.length_append, List.length_cons]
    omega

/-- **A printed string reads back.** -/
theorem parseString_print {s : Bytes} (hs : ValidUtf8 s) (r : Bytes) :
    parseString (s.flatMap escapeByte ++ quote :: r) = some (s, r) := by
  have := length_le_flatMap_escapeByte s
  rw [parseString, parseBody_escape s r (by simp only [List.length_append, List.length_cons]; omega)]
  simp [hs]

/-! ### Numbers -/

def isDigit (b : UInt8) : Bool := 48 ≤ b && b ≤ 57

def parseDigits (s : Bytes) : Option (Bytes × Bytes) :=
  if s.takeWhile isDigit = [] then none else some (s.takeWhile isDigit, s.dropWhile isDigit)

def digitsValue (ds : Bytes) : Nat := ds.foldl (fun n d => 10 * n + (d.toNat - 48)) 0

def parseFraction : Bytes → Option (Bytes × Bytes)
  | 46 :: r => parseDigits r
  | r => some ([], r)

def parseExponent : Bytes → Option (Option Int × Bytes)
  | [] => some (none, [])
  | c :: r =>
    if c = 101 ∨ c = 69 then
      match r with
      | 45 :: r => (parseDigits r).map fun p => (some (-(digitsValue p.1 : Int)), p.2)
      | 43 :: r => (parseDigits r).map fun p => (some (digitsValue p.1), p.2)
      | r => (parseDigits r).map fun p => (some (digitsValue p.1), p.2)
    else some (none, c :: r)

/-- A number without fraction and exponent is an integer as long as it fits. -/
def numberOf (neg : Bool) (ds frac : Bytes) (exp : Option Int) : Json :=
  let mantissa : Int := digitsValue (ds ++ frac)
  let mantissa := if neg then -mantissa else mantissa
  if frac = [] ∧ exp = none ∧ -(2 ^ 63) ≤ mantissa ∧ mantissa < 2 ^ 64 then .int mantissa
  else .float mantissa (exp.getD 0 - frac.length)

def parseUnsigned (neg : Bool) (s : Bytes) : Option (Json × Bytes) := do
  let (ds, r) ← parseDigits s
  if ds.length ≠ 1 ∧ ds.head? = some 48 then none
  else
    let (frac, r) ← parseFraction r
    let (exp, r) ← parseExponent r
    return (numberOf neg ds frac exp, r)

def parseNumber : Bytes → Option (Json × Bytes)
  | 45 :: r => parseUnsigned true r
  | r => parseUnsigned false r

/-- What may follow a value: the end, a comma or a closing bracket. -/
def Ends (r : Bytes) : Prop :=
  r = [] ∨ ∃ c t, r = c :: t ∧ (c = comma ∨ c = closeBracket ∨ c = closeBrace)

theorem digitsValue_toDigits (n : Nat) : digitsValue (ascii (Nat.toDigits 10 n)) = n := by
  have h : ∀ (l : List Char) (k : Nat), (∀ c ∈ l, c.toNat < 256) →
      (ascii l).foldl (fun n d => 10 * n + (d.toNat - 48)) k = Nat.ofDigitChars 10 l k := by
    intro l
    induction l with
    | nil => intro k _; simp [ascii]
    | cons c l ih =>
      intro k hl
      have hc := hl c (by simp)
      have he : (UInt8.ofNat c.toNat).toNat = c.toNat := by simp; omega
      rw [ascii, List.map_cons, List.foldl_cons, he, Nat.ofDigitChars_cons]
      exact ih _ fun d hd => hl d (by simp [hd])
  rw [digitsValue, h _ _ fun c hc => ?_, Nat.ofDigitChars_toDigits (by decide) (by decide)]
  have hd := Nat.isDigit_of_mem_toDigits (by decide) (by decide) hc
  simp only [Char.isDigit, Bool.and_eq_true, decide_eq_true_eq, UInt32.le_iff_toNat_le] at hd
  have : c.val.toNat ≤ 57 := hd.2
  show c.val.toNat < 256
  omega

theorem head_toDigits : ∀ n : Nat, 0 < n → (Nat.toDigits 10 n).head? ≠ some '0' := by
  intro n
  induction n using Nat.strong_induction_on with
  | _ n ih =>
    intro hn
    rcases Nat.lt_or_ge n 10 with h | h
    · rw [Nat.toDigits_of_lt_base h]
      have key : ∀ k < 10, 0 < k → [Nat.digitChar k].head? ≠ some '0' := by decide
      exact key n h hn
    · rw [Nat.toDigits_of_base_le (by decide) h, List.head?_append]
      have := ih (n / 10) (by omega) (by omega)
      cases hd : (Nat.toDigits 10 (n / 10)).head? with
      | none => simp [Nat.toDigits_ne_nil] at hd
      | some c => rw [hd] at this; simpa using this

theorem isDigit_of_mem_toDigits {n : Nat} : ∀ b ∈ ascii (Nat.toDigits 10 n), isDigit b = true :=
  fun b hb => by simpa [isDigit] using ascii_toDigits_le n b hb

theorem parseDigits_toDigits (n : Nat) {r : Bytes} (hr : Ends r) :
    parseDigits (ascii (Nat.toDigits 10 n) ++ r) = some (ascii (Nat.toDigits 10 n), r) := by
  have hne : ascii (Nat.toDigits 10 n) ≠ [] := by simp [ascii, Nat.toDigits_ne_nil]
  have hr' : r.takeWhile isDigit = [] ∧ r.dropWhile isDigit = r := by
    rcases hr with rfl | ⟨c, t, rfl, rfl | rfl | rfl⟩ <;> simp +decide [isDigit]
  rw [parseDigits, List.takeWhile_append_of_pos isDigit_of_mem_toDigits,
    List.dropWhile_append_of_pos isDigit_of_mem_toDigits, hr'.1, hr'.2, List.append_nil,
    if_neg hne]

theorem parseUnsigned_toDigits (neg : Bool) (n : Nat) {r : Bytes} (hr : Ends r) :
    parseUnsigned neg (ascii (Nat.toDigits 10 n) ++ r) =
      some (numberOf neg (ascii (Nat.toDigits 10 n)) [] none, r) := by
  have hz : ¬ ((ascii (Nat.toDigits 10 n)).length ≠ 1 ∧
      (ascii (Nat.toDigits 10 n)).head? = some 48) := by
    rintro ⟨h1, h2⟩
    rcases Nat.eq_zero_or_pos n with rfl | hn
    · simp [ascii, Nat.toDigits_zero] at h1
    · have hh := head_toDigits n hn
      rw [ascii, List.head?_map, Option.map_eq_some_iff] at h2
      obtain ⟨c, hc, he⟩ := h2
      have hd := Nat.isDigit_of_mem_toDigits (by decide) (by decide) (List.mem_of_head? hc)
      simp only [Char.isDigit, Bool.and_eq_true, decide_eq_true_eq, UInt32.le_iff_toNat_le] at hd
      have h57 : c.val.toNat ≤ 57 := hd.2
      have hcv : c.toNat = c.val.toNat := rfl
      have : c.toNat = 48 := by
        have := congrArg UInt8.toNat he
        simp at this; omega
      have : c = '0' := Char.toNat_inj.mp this
      exact hh (this ▸ hc)
  have hf : parseFraction r = some ([], r) := by
    rcases hr with rfl | ⟨c, t, rfl, rfl | rfl | rfl⟩ <;> rfl
  have he : parseExponent r = some (none, r) := by
    rcases hr with rfl | ⟨c, t, rfl, rfl | rfl | rfl⟩ <;> rfl
  simp [parseUnsigned, parseDigits_toDigits n hr, hz, hf, he]

/-- **A printed integer reads back**, when it fits 64 bits. -/
theorem parseNumber_decimal {n : Int} (h : -(2 ^ 63) ≤ n ∧ n < 2 ^ 64) {r : Bytes} (hr : Ends r) :
    parseNumber (decimal n ++ r) = some (.int n, r) := by
  have key : ∀ neg : Bool, (if neg then -(n.natAbs : Int) else n.natAbs) = n →
      numberOf neg (ascii (Nat.toDigits 10 n.natAbs)) [] none = .int n := by
    intro neg hn
    rw [numberOf, List.append_nil, digitsValue_toDigits]
    simp only [hn]
    rw [if_pos ⟨trivial, trivial, h⟩]
  unfold decimal
  split
  · next hneg =>
    rw [List.cons_append, parseNumber, parseUnsigned_toDigits _ _ hr, key true
      (by rw [if_pos rfl]; omega)]
  · next hpos =>
    have hhead : ∀ t, ascii (Nat.toDigits 10 n.natAbs) ++ r ≠ 45 :: t := by
      intro t ht
      cases hd : ascii (Nat.toDigits 10 n.natAbs) with
      | nil => simp [ascii, Nat.toDigits_ne_nil] at hd
      | cons c l =>
        have := (ascii_toDigits_le n.natAbs c (by rw [hd]; simp)).1
        rw [hd, List.cons_append] at ht
        obtain ⟨rfl, -⟩ := List.cons.inj ht
        exact absurd this (by decide)
    have hp : parseNumber (ascii (Nat.toDigits 10 n.natAbs) ++ r) =
        parseUnsigned false (ascii (Nat.toDigits 10 n.natAbs) ++ r) := by
      unfold parseNumber
      split
      · next t ht => exact absurd ht (hhead _)
      · rfl
    rw [hp, parseUnsigned_toDigits _ _ hr, key false
      (by rw [if_neg Bool.false_ne_true]; omega)]

/-! ### Values -/

mutual

def print : Json → Bytes
  | .null => "null"
  | .bool true => "true"
  | .bool false => "false"
  | .int n => decimal n
  | .float m e => decimal m ++ "e" ++ decimal e
  | .str s => printString s
  | .arr [] => "[]"
  | .arr (j :: l) => openBracket :: (print j ++ printTail l)
  | .obj [] => "{}"
  | .obj ((k, v) :: l) => openBrace :: (printString k ++ colon :: (print v ++ printMembers l))

/-- The elements behind the first one, and the closing bracket. -/
def printTail : List Json → Bytes
  | [] => [closeBracket]
  | j :: l => comma :: (print j ++ printTail l)

def printMembers : Fields → Bytes
  | [] => [closeBrace]
  | (k, v) :: l => comma :: (printString k ++ colon :: (print v ++ printMembers l))

end

mutual

def isUtf8 : Json → Bool
  | .str s => decide (ValidUtf8 s)
  | .arr l => isUtf8List l
  | .obj l => isUtf8Fields l
  | _ => true

def isUtf8List : List Json → Bool
  | [] => true
  | j :: l => isUtf8 j && isUtf8List l

def isUtf8Fields : Fields → Bool
  | [] => true
  | (k, v) :: l => decide (ValidUtf8 k) && (isUtf8 v && isUtf8Fields l)

end

def dump (j : Json) : Option Bytes := if isUtf8 j then some (print j) else none

def isSpace (b : UInt8) : Bool := b = 32 || b = 9 || b = 10 || b = 13

def skipSpace (s : Bytes) : Bytes := s.dropWhile isSpace

def parseWord (w : Bytes) (j : Json) (s : Bytes) : Option (Json × Bytes) :=
  if s.take w.length = w then some (j, s.drop w.length) else none

mutual

/-- One value, in at most `n` calls one inside the other. -/
def parseValue : Nat → Bytes → Option (Json × Bytes)
  | 0, _ => none
  | n + 1, s =>
    match skipSpace s with
    | [] => none
    | c :: r =>
      if c = quote then (parseString r).map fun p => (.str p.1, p.2)
      else if c = openBracket then
        if (skipSpace r).head? = some closeBracket then some (.arr [], (skipSpace r).tail)
        else
          match parseValue n r with
          | none => none
          | some (j, r) => (parseTail n r).map fun p => (.arr (j :: p.1), p.2)
      else if c = openBrace then
        if (skipSpace r).head? = some closeBrace then some (.obj [], (skipSpace r).tail)
        else
          match parseMember n r with
          | none => none
          | some (k, v, r) => (parseMembers n (objSet k v []) r).map fun p => (.obj p.1, p.2)
      else if c = 110 then parseWord "null" .null (c :: r)
      else if c = 116 then parseWord "true" (.bool true) (c :: r)
      else if c = 102 then parseWord "false" (.bool false) (c :: r)
      else parseNumber (c :: r)

def parseTail : Nat → Bytes → Option (List Json × Bytes)
  | 0, _ => none
  | n + 1, s =>
    match skipSpace s with
    | [] => none
    | c :: r =>
      if c = comma then
        match parseValue n r with
        | none => none
        | some (j, r) => (parseTail n r).map fun p => (j :: p.1, p.2)
      else if c = closeBracket then some ([], r)
      else none

def parseMember : Nat → Bytes → Option (Bytes × Json × Bytes)
  | 0, _ => none
  | n + 1, s =>
    match skipSpace s with
    | [] => none
    | c :: r =>
      if c = quote then
        match parseString r with
        | none => none
        | some (k, r) =>
          match skipSpace r with
          | [] => none
          | c :: r =>
            if c = colon then (parseValue n r).map fun p => (k, p.1, p.2) else none
      else none

/-- The members behind those in `acc`; a key that comes again replaces. -/
def parseMembers : Nat → Fields → Bytes → Option (Fields × Bytes)
  | 0, _, _ => none
  | n + 1, acc, s =>
    match skipSpace s with
    | [] => none
    | c :: r =>
      if c = comma then
        match parseMember n r with
        | none => none
        | some (k, v, r) => parseMembers n (objSet k v acc) r
      else if c = closeBrace then some (acc, r)
      else none

end

def parse (s : Bytes) : Option Json :=
  match parseValue (s.length + 1) s with
  | some (j, r) => if skipSpace r = [] then some j else none
  | none => none

/-! ### What the printer refuses -/

theorem isUtf8_iff (j : Json) : isUtf8 j = true ↔ j.Utf8 := by
  have hlist : ∀ l : List Json, (∀ j ∈ l, isUtf8 j = true ↔ j.Utf8) →
      (isUtf8List l = true ↔ ∀ j ∈ l, j.Utf8) := by
    intro l
    induction l with
    | nil => simp [isUtf8List]
    | cons j l ih =>
      intro h
      rw [List.forall_mem_cons] at h
      simp [isUtf8List, h.1, ih h.2]
  have hfields : ∀ l : Fields, (∀ f ∈ l, isUtf8 f.2 = true ↔ f.2.Utf8) →
      (isUtf8Fields l = true ↔ (∀ f ∈ l, ValidUtf8 f.1) ∧ ∀ f ∈ l, f.2.Utf8) := by
    intro l
    induction l with
    | nil => simp [isUtf8Fields]
    | cons f l ih =>
      intro h
      rw [List.forall_mem_cons] at h
      simp only [isUtf8Fields, Bool.and_eq_true, decide_eq_true_eq, h.1, ih h.2,
        List.forall_mem_cons]
      tauto
  induction j using Json.induct with
  | str s => simp [isUtf8]
  | arr l ih => rw [isUtf8, hlist l ih, utf8_arr]
  | obj l ih => rw [isUtf8, hfields l ih, Json.Utf8, everywhere_obj]
  | _ => simp [isUtf8, Json.Utf8, Json.Everywhere]

/-! ### The round trip -/

theorem skipSpace_cons {c : UInt8} (h : isSpace c = false) (r : Bytes) :
    skipSpace (c :: r) = c :: r := by
  simp [skipSpace, h]

/-- A printed value starts with a byte that is neither white space nor closes an
array. -/
theorem print_head (j : Json) :
    ∃ c t, print j = c :: t ∧ isSpace c = false ∧ c ≠ closeBracket := by
  have hdec : ∀ n : Int, ∃ c t, decimal n = c :: t ∧ isSpace c = false ∧ c ≠ closeBracket := by
    intro n
    unfold decimal
    split
    · exact ⟨_, _, rfl, by decide, by decide⟩
    · cases hd : ascii (Nat.toDigits 10 n.natAbs) with
      | nil => simp [ascii, Nat.toDigits_ne_nil] at hd
      | cons c t =>
        obtain ⟨h1, h2⟩ := ascii_toDigits_le n.natAbs c (by rw [hd]; simp)
        rw [UInt8.le_iff_toNat_le] at h1 h2
        have hne : ∀ d : UInt8, d.toNat < 48 ∨ 57 < d.toNat → c ≠ d := by
          rintro d hd rfl
          simp at h1 h2
          omega
        refine ⟨c, t, rfl, ?_, hne _ (by decide)⟩
        simp [isSpace, hne 32 (by decide), hne 9 (by decide), hne 10 (by decide),
          hne 13 (by decide)]
  cases j with
  | null => exact ⟨_, _, rfl, by decide, by decide⟩
  | bool b => cases b <;> exact ⟨_, _, rfl, by decide, by decide⟩
  | int n => exact hdec n
  | float m e =>
    obtain ⟨c, t, h, hs, hb⟩ := hdec m
    exact ⟨c, t ++ "e" ++ decimal e, by rw [print, h]; rfl, hs, hb⟩
  | str s => exact ⟨_, _, rfl, by decide, by decide⟩
  | arr l => cases l <;> exact ⟨_, _, rfl, by decide, by decide⟩
  | obj l => rcases l with _ | ⟨⟨k, v⟩, l⟩ <;> exact ⟨_, _, rfl, by decide, by decide⟩

theorem ends_printTail (l : List Json) (r : Bytes) : Ends (printTail l ++ r) := by
  cases l with
  | nil => exact .inr ⟨_, _, rfl, .inr (.inl rfl)⟩
  | cons j l => exact .inr ⟨_, _, rfl, .inl rfl⟩

theorem ends_printMembers (l : Fields) (r : Bytes) : Ends (printMembers l ++ r) := by
  cases l with
  | nil => exact .inr ⟨_, _, rfl, .inr (.inr rfl)⟩
  | cons f l => exact .inr ⟨_, _, rfl, .inl rfl⟩

def ReadsBack (j : Json) : Prop :=
  ∀ n r, (print j).length < n → Ends r → parseValue n (print j ++ r) = some (j, r)

theorem exists_succ {k n : Nat} (h : k < n) : ∃ m, n = m + 1 := ⟨n - 1, by omega⟩

theorem parseTail_print {l : List Json} (hl : ∀ j ∈ l, ReadsBack j) :
    ∀ n r, (printTail l).length ≤ n → parseTail n (printTail l ++ r) = some (l, r) := by
  induction l with
  | nil =>
    intro n r hn
    obtain ⟨n, rfl⟩ := exists_succ (show 0 < n from hn)
    rfl
  | cons j l ih =>
    intro n r hn
    rw [List.forall_mem_cons] at hl
    simp only [printTail, List.length_cons, List.length_append] at hn
    obtain ⟨n, rfl⟩ := exists_succ hn
    have hpos : 0 < (printTail l).length := by cases l <;> simp [printTail]
    have hj := hl.1 n (printTail l ++ r) (by omega) (ends_printTail l r)
    have hcomma : skipSpace (comma :: (print j ++ (printTail l ++ r))) =
        comma :: (print j ++ (printTail l ++ r)) := skipSpace_cons (by decide) _
    simp only [printTail, List.cons_append, List.append_assoc, parseTail, hcomma, if_true, hj,
      ih hl.2 n r (by omega), Option.map_some]

theorem parseMember_print {k : Bytes} {v : Json} (hk : ValidUtf8 k) (hv : ReadsBack v) {n : Nat}
    {r : Bytes} (hn : (printString k).length + (print v).length < n) (hr : Ends r) :
    parseMember n (printString k ++ colon :: (print v ++ r)) = some (k, v, r) := by
  obtain ⟨n, rfl⟩ := exists_succ hn
  have hquote : ∀ t, skipSpace (quote :: t) = quote :: t := skipSpace_cons (by decide)
  have hcolon : ∀ t, skipSpace (colon :: t) = colon :: t := skipSpace_cons (by decide)
  simp only [printString, List.length_cons, List.length_append] at hn
  simp only [printString, List.cons_append, List.append_assoc, List.nil_append, parseMember, hquote,
    if_true, parseString_print hk, hcolon, hv n r (by omega) hr, Option.map_some]

theorem parseMembers_print {l : Fields} (hk : ∀ f ∈ l, ValidUtf8 f.1)
    (hv : ∀ f ∈ l, ReadsBack f.2) :
    ∀ n acc r, KeysAscend (acc ++ l) → (printMembers l).length ≤ n →
      parseMembers n acc (printMembers l ++ r) = some (acc ++ l, r) := by
  induction l with
  | nil =>
    intro n acc r _ hn
    obtain ⟨n, rfl⟩ := exists_succ (show 0 < n from hn)
    rw [List.append_nil]
    rfl
  | cons f l ih =>
    obtain ⟨k, v⟩ := f
    intro n acc r ha hn
    rw [List.forall_mem_cons] at hk hv
    simp only [printMembers, List.length_cons, List.length_append] at hn
    obtain ⟨n, rfl⟩ := exists_succ hn
    have hset : objSet k v acc = acc ++ [(k, v)] := objSet_last fun f hf =>
      (List.pairwise_append.mp ha).2.2 f hf (k, v) List.mem_cons_self
    have ha' : KeysAscend ((acc ++ [(k, v)]) ++ l) := by simpa using ha
    have hm := parseMember_print (k := k) (v := v) hk.1 hv.1 (n := n) (r := printMembers l ++ r)
      (by omega) (ends_printMembers l r)
    have hcomma : ∀ t, skipSpace (comma :: t) = comma :: t := skipSpace_cons (by decide)
    simp only [printMembers, List.cons_append, List.append_assoc, parseMembers, hcomma, if_true,
      hm, hset]
    rw [ih hk.2 hv.2 n _ r ha' (by omega)]
    simp

/-- **Every plain UTF-8 value reads back.** -/
theorem readsBack (j : Json) (hp : j.Plain) (hu : j.Utf8) : ReadsBack j := by
  induction j using Json.induct with
  | null => intro n r hn _; obtain ⟨n, rfl⟩ := exists_succ hn; rfl
  | bool b => intro n r hn _; obtain ⟨n, rfl⟩ := exists_succ hn; cases b <;> rfl
  | int i =>
    intro n r hn hr
    obtain ⟨n, rfl⟩ := exists_succ hn
    obtain ⟨c, t, hc, hs, -⟩ := print_head (.int i)
    have hnum := parseNumber_decimal (show -(2 ^ 63) ≤ i ∧ i < 2 ^ 64 from hp) hr
    have hd : c = 45 ∨ isDigit c = true := by
      have hmem : c ∈ decimal i := by rw [show decimal i = c :: t from hc]; simp
      unfold decimal at hmem
      split at hmem
      · rcases List.mem_cons.mp hmem with h | h
        · exact .inl h
        · exact .inr (isDigit_of_mem_toDigits c h)
      · exact .inr (isDigit_of_mem_toDigits c hmem)
    have hne : ∀ d : UInt8, d ≠ 45 → isDigit d = false → c ≠ d := by
      rintro d h1 h2 rfl
      rcases hd with h | h
      · exact h1 h
      · rw [h2] at h; simp at h
    rw [show decimal i = c :: t from hc] at hnum
    rw [hc, List.cons_append, parseValue, skipSpace_cons hs]
    simp only
    rw [if_neg (hne _ (by decide) rfl), if_neg (hne _ (by decide) rfl),
      if_neg (hne _ (by decide) rfl), if_neg (hne _ (by decide) rfl),
      if_neg (hne _ (by decide) rfl), if_neg (hne _ (by decide) rfl)]
    exact hnum
  | float m e => exact absurd hp (by simp [Json.Plain, Json.Everywhere])
  | str s =>
    intro n r hn _
    obtain ⟨n, rfl⟩ := exists_succ hn
    have hq : ∀ t, skipSpace (quote :: t) = quote :: t := skipSpace_cons (by decide)
    simp only [print, printString, List.cons_append, List.append_assoc, List.nil_append, parseValue,
      hq, if_true, parseString_print (utf8_str.mp hu), Option.map_some]
  | arr l ih =>
    intro n r hn _
    obtain ⟨n, rfl⟩ := exists_succ hn
    have hq : ∀ t, skipSpace (openBracket :: t) = openBracket :: t := skipSpace_cons (by decide)
    have hne : openBracket ≠ quote := by decide
    cases l with
    | nil => rfl
    | cons j l =>
      have hl : ∀ i ∈ j :: l, ReadsBack i := fun i hi =>
        ih i hi (plain_arr.mp hp i hi) (utf8_arr.mp hu i hi)
      rw [List.forall_mem_cons] at hl
      simp only [print, List.length_cons, List.length_append] at hn
      have hj := hl.1 n (printTail l ++ r) (by omega) (ends_printTail l r)
      have hhead : (skipSpace (print j ++ (printTail l ++ r))).head? ≠ some closeBracket := by
        obtain ⟨c, t, hc, hs, hb⟩ := print_head j
        rw [hc, List.cons_append, skipSpace_cons hs]
        simpa using hb
      simp only [print, List.cons_append, List.append_assoc, parseValue, hq, hne, if_false, if_true,
        hhead, hj, parseTail_print hl.2 n r (by omega), Option.map_some]
  | obj l ih =>
    intro n r hn _
    obtain ⟨n, rfl⟩ := exists_succ hn
    have hq : ∀ t, skipSpace (openBrace :: t) = openBrace :: t := skipSpace_cons (by decide)
    have hne : openBrace ≠ quote ∧ openBrace ≠ openBracket := by decide
    obtain ⟨hk, hu⟩ := everywhere_obj.mp hu
    obtain ⟨ha, hp⟩ := everywhere_obj.mp hp
    cases l with
    | nil => rfl
    | cons f l =>
      obtain ⟨k, v⟩ := f
      have hl : ∀ f ∈ (k, v) :: l, ReadsBack f.2 := fun f hf => ih f hf (hp f hf) (hu f hf)
      have hk : ∀ f ∈ (k, v) :: l, ValidUtf8 f.1 := hk
      rw [List.forall_mem_cons] at hl hk
      simp only [print, List.length_cons, List.length_append] at hn
      have hpos : 0 < (printMembers l).length := by
        rcases l with _ | ⟨⟨k, v⟩, l⟩ <;> simp [printMembers]
      have hm := parseMember_print (k := k) (v := v) hk.1 hl.1 (n := n) (r := printMembers l ++ r)
        (by omega) (ends_printMembers l r)
      have hhead : ∀ t, (skipSpace (quote :: t)).head? ≠ some closeBrace := fun t => by
        rw [skipSpace_cons (by decide), List.head?_cons]
        decide
      have hms := parseMembers_print hk.2 hl.2 n [(k, v)] r ha (by omega)
      simp only [printString, List.cons_append, List.append_assoc, List.nil_append] at hm
      simp only [print, printString, List.cons_append, List.append_assoc, parseValue, hq, hne.1,
        hne.2, if_false, if_true, hhead, hm, objSet, hms, Option.map_some, List.nil_append]

/-- **The parser undoes the printer.** -/
theorem parse_dump {j : Json} {b : Bytes} (hp : j.Plain) (h : dump j = some b) :
    parse b = some j := by
  unfold dump at h
  split at h
  · next hu =>
    obtain rfl := Option.some.inj h
    have := readsBack j hp ((isUtf8_iff j).mp hu) ((print j).length + 1) [] (by omega) (.inl rfl)
    rw [List.append_nil] at this
    rw [parse, this]
    rfl
  · cases h

/-! ### What the parser accepts -/

theorem validUtf8_of_parseString {s t r : Bytes} (h : parseString s = some (t, r)) :
    ValidUtf8 t := by
  unfold parseString at h
  split at h
  · split at h
    · next hv => cases h; exact hv
    · cases h
  · cases h

theorem utf8_numberOf (neg : Bool) (ds frac : Bytes) (exp : Option Int) :
    (numberOf neg ds frac exp).Utf8 := by
  have hleaf : ∀ m e, (Json.float m e).Utf8 ∧ (Json.int m).Utf8 := fun _ _ => ⟨trivial, trivial⟩
  simp only [numberOf]
  repeat' split
  all_goals first | exact (hleaf _ 0).2 | exact (hleaf _ _).1

theorem utf8_of_parseNumber {s r : Bytes} {j : Json} (h : parseNumber s = some (j, r)) : j.Utf8 := by
  have key : ∀ neg s, parseUnsigned neg s = some (j, r) → j.Utf8 := by
    intro neg s h
    simp only [parseUnsigned, Option.bind_eq_bind, Option.bind_eq_some_iff] at h
    obtain ⟨⟨ds, r₁⟩, -, h⟩ := h
    split at h
    · cases h
    · simp only [Option.bind_eq_some_iff] at h
      obtain ⟨⟨frac, r₂⟩, -, ⟨exp, r₃⟩, -, h⟩ := h
      cases h
      exact utf8_numberOf ..
  unfold parseNumber at h
  split at h <;> exact key _ _ h

theorem utf8_of_parseWord {w s r : Bytes} {i j : Json} (hi : i.Utf8)
    (h : parseWord w i s = some (j, r)) : j.Utf8 := by
  unfold parseWord at h
  split at h
  · cases h; exact hi
  · cases h

theorem utf8_obj_objSet {k : Bytes} {v : Json} {l : Fields} (hk : ValidUtf8 k) (hv : v.Utf8)
    (hl : (Json.obj l).Utf8) : (Json.obj (objSet k v l)).Utf8 := by
  obtain ⟨h1, h2⟩ := everywhere_obj.mp hl
  refine everywhere_obj.mpr ⟨fun f hf => ?_, fun f hf => ?_⟩
  · rcases mem_objSet hf with rfl | hf
    · exact hk
    · exact h1 f hf
  · rcases mem_objSet hf with rfl | hf
    · exact hv
    · exact h2 f hf

/-- What each of the four mutual calls gives is UTF-8, by induction on the count. -/
theorem utf8_of_parse_aux (n : Nat) :
    (∀ s j r, parseValue n s = some (j, r) → j.Utf8) ∧
    (∀ s l r, parseTail n s = some (l, r) → ∀ j ∈ l, j.Utf8) ∧
    (∀ s k v r, parseMember n s = some (k, v, r) → ValidUtf8 k ∧ v.Utf8) ∧
    (∀ acc s l r, (Json.obj acc).Utf8 → parseMembers n acc s = some (l, r) →
      (Json.obj l).Utf8) := by
  have hempty : (Json.obj []).Utf8 := everywhere_obj.mpr ⟨by simp, by simp⟩
  induction n with
  | zero => simp [parseValue, parseTail, parseMember, parseMembers]
  | succ n ih =>
    obtain ⟨ihV, ihT, ihM, ihMs⟩ := ih
    refine ⟨fun s j r h => ?_, fun s l r h => ?_, fun s k v r h => ?_, fun acc s l r ha h => ?_⟩
    · rw [parseValue] at h
      split at h
      · cases h
      next c t _ =>
      split at h
      · simp only [Option.map_eq_some_iff] at h
        obtain ⟨⟨t, r'⟩, hp, h⟩ := h
        cases h
        exact validUtf8_of_parseString hp
      split at h
      · split at h
        · cases h; exact utf8_arr.mpr (by simp)
        · split at h
          · cases h
          · next j' r' hj =>
            simp only [Option.map_eq_some_iff] at h
            obtain ⟨⟨l, r''⟩, hl, h⟩ := h
            cases h
            exact utf8_arr.mpr (List.forall_mem_cons.mpr ⟨ihV _ _ _ hj, ihT _ _ _ hl⟩)
      split at h
      · split at h
        · cases h; exact hempty
        · split at h
          · cases h
          · next k v r' hm =>
            simp only [Option.map_eq_some_iff] at h
            obtain ⟨⟨l, r''⟩, hl, h⟩ := h
            cases h
            obtain ⟨hk, hv⟩ := ihM _ _ _ _ hm
            exact ihMs _ _ _ _ (utf8_obj_objSet hk hv hempty) hl
      split at h
      · exact utf8_of_parseWord (i := .null) trivial h
      split at h
      · exact utf8_of_parseWord (i := .bool true) trivial h
      split at h
      · exact utf8_of_parseWord (i := .bool false) trivial h
      · exact utf8_of_parseNumber h
    · rw [parseTail] at h
      split at h
      · cases h
      split at h
      · split at h
        · cases h
        · next j' r' hj =>
          simp only [Option.map_eq_some_iff] at h
          obtain ⟨⟨l, r''⟩, hl, h⟩ := h
          cases h
          exact List.forall_mem_cons.mpr ⟨ihV _ _ _ hj, ihT _ _ _ hl⟩
      split at h
      · cases h; simp
      · cases h
    · rw [parseMember] at h
      split at h
      · cases h
      split at h
      · split at h
        · cases h
        · next k' r' hk =>
          split at h
          · cases h
          split at h
          · simp only [Option.map_eq_some_iff] at h
            obtain ⟨⟨v, r''⟩, hv, h⟩ := h
            cases h
            exact ⟨validUtf8_of_parseString hk, ihV _ _ _ hv⟩
          · cases h
      · cases h
    · rw [parseMembers] at h
      split at h
      · cases h
      split at h
      · split at h
        · cases h
        · next k v r' hm =>
          obtain ⟨hk, hv⟩ := ihM _ _ _ _ hm
          exact ihMs _ _ _ _ (utf8_obj_objSet hk hv ha) h
      split at h
      · cases h; exact ha
      · cases h

theorem utf8_of_parse {b : Bytes} {j : Json} (h : parse b = some j) : j.Utf8 := by
  unfold parse at h
  split at h
  · next j' r hp =>
    split at h
    · cases h; exact (utf8_of_parse_aux _).1 _ _ _ hp
    · cases h
  · cases h

end JsonText

/-- **The printer and the parser are a text format.** -/
def jsonText : JsonFormat where
  parse := JsonText.parse
  dump := JsonText.dump
  dump_isSome j := by
    rw [← JsonText.isUtf8_iff, JsonText.dump]
    split <;> simp_all
  parse_dump _ _ := JsonText.parse_dump
  parse_utf8 _ _ := JsonText.utf8_of_parse

theorem dumpText_jsonText {j : Json} (hu : j.Utf8) :
    jsonText.dumpText j = .ok (JsonText.print j) := by
  have h : jsonText.dump j = some (JsonText.print j) := if_pos ((JsonText.isUtf8_iff j).mpr hu)
  rw [JsonFormat.dumpText, h]

theorem parseText_print {j : Json} (hp : j.Plain) (hu : j.Utf8) :
    jsonText.parseText (JsonText.print j) = .ok j :=
  jsonText.parseText_dumpText hp (dumpText_jsonText hu)

end Ocpe.Lib
