import Mathlib.Data.List.Basic
import Ocpe.Lib.Bytes

/-!
# Markup

The part of HTML that a program writes with templates, as bytes of UTF-8: start tags with
quoted attributes, end tags, and text in which `&`, `<`, `>` and the no-break space stand as
references.  What is not in this part is not read at all.

* `step`, `scan`: the tokenizer, a machine over the bytes.
* `build`, `read`: the tree of the tokens, for a `Content` model.
* `escape`: the text that a serializer writes for a text.
* `scan_escape`: it is read as this text, but for the line ends.
* `read_renderAll`: a forest that is written out is read as this forest, but for what a reader
  does to every text (`shownText`).
-/

namespace Ocpe.Lib.Markup

/-! ### Tokens -/

abbrev Attributes := List (Bytes × Bytes)

inductive Token
  | char (b : UInt8)
  | start (name : Bytes) (attributes : Attributes)
  | stop (name : Bytes)
  deriving DecidableEq, Repr

/-- Where the tokenizer stands. -/
inductive State
  | data
  /-- behind a carriage return, which is read as a line feed, with the line feed behind it -/
  | carriageReturn
  | reference (name : Bytes)
  | tagOpen
  | tagName (name : Bytes)
  | attribute (name : Bytes) (attributes : Attributes)
  | attributeName (name : Bytes) (attributes : Attributes) (key : Bytes)
  | attributeValue (name : Bytes) (attributes : Attributes) (key : Bytes)
  | quoted (name : Bytes) (attributes : Attributes) (key value : Bytes)
  | quotedEnd (name : Bytes) (attributes : Attributes)
  | endTagOpen
  | endTagName (name : Bytes)
  deriving DecidableEq, Repr

def isLetter (b : UInt8) : Bool := 97 ≤ b && b ≤ 122

/-- What a name goes on with. -/
def isNameByte (b : UInt8) : Bool := isLetter b || (48 ≤ b && b ≤ 57) || b == 45

/-- What stands for itself between quotes. -/
def isValueByte (b : UInt8) : Bool := b != 0 && b != 13 && b != 34 && b != 38

/-- The character of a reference. -/
def character (name : Bytes) : Option Bytes :=
  if name = "amp" then some [38]
  else if name = "lt" then some [60]
  else if name = "gt" then some [62]
  else if name = "nbsp" then some [194, 160]
  else none

def stepData (b : UInt8) : Option (State × List Token) :=
  if b = 38 then some (.reference [], [])
  else if b = 60 then some (.tagOpen, [])
  else if b = 13 then some (.carriageReturn, [.char 10])
  else some (.data, [.char b])

/-- Behind the name of a start tag, or behind an attribute. -/
def stepTag (name : Bytes) (attributes : Attributes) (b : UInt8) : Option (State × List Token) :=
  if b = 32 then some (.attribute name attributes, [])
  else if b = 62 then some (.data, [.start name attributes])
  else none

def step : State → UInt8 → Option (State × List Token)
  | .data, b => stepData b
  | .carriageReturn, b => if b = 10 then some (.data, []) else stepData b
  | .reference name, b =>
    if b = 59 then (character name).map fun s => (.data, s.map .char)
    else if isLetter b then some (.reference (name ++ [b]), [])
    else none
  | .tagOpen, b =>
    if b = 47 then some (.endTagOpen, [])
    else if isLetter b then some (.tagName [b], [])
    else none
  | .tagName name, b =>
    if isNameByte b then some (.tagName (name ++ [b]), []) else stepTag name [] b
  | .attribute name attributes, b =>
    if isLetter b then some (.attributeName name attributes [b], []) else none
  | .attributeName name attributes key, b =>
    if isNameByte b then some (.attributeName name attributes (key ++ [b]), [])
    else if b = 61 ∧ key ∉ attributes.map (·.1) then some (.attributeValue name attributes key, [])
    else none
  | .attributeValue name attributes key, b =>
    if b = 34 then some (.quoted name attributes key [], []) else none
  | .quoted name attributes key value, b =>
    if b = 34 then some (.quotedEnd name (attributes ++ [(key, value)]), [])
    else if isValueByte b then some (.quoted name attributes key (value ++ [b]), [])
    else none
  | .quotedEnd name attributes, b => stepTag name attributes b
  | .endTagOpen, b => if isLetter b then some (.endTagName [b], []) else none
  | .endTagName name, b =>
    if isNameByte b then some (.endTagName (name ++ [b]), [])
    else if b = 62 then some (.data, [.stop name])
    else none

def scan : State → Bytes → Option (State × List Token)
  | st, [] => some (st, [])
  | st, b :: s =>
    (step st b).bind fun x => (scan x.1 s).map fun y => (y.1, x.2 ++ y.2)

variable {st st' st'' : State} {s t : Bytes} {us vs : List Token}

theorem scan_append (h : scan st s = some (st', us)) (h' : scan st' t = some (st'', vs)) :
    scan st (s ++ t) = some (st'', us ++ vs) := by
  induction s generalizing st us with
  | nil =>
    cases h
    exact h'
  | cons b s ih =>
    obtain ⟨x, hx, h⟩ := Option.bind_eq_some_iff.mp h
    obtain ⟨y, hy, hpair⟩ := Option.map_eq_some_iff.mp h
    cases hpair
    rw [List.cons_append, scan, hx, Option.bind_some, ih hy, Option.map_some, List.append_assoc]

theorem scan_cons {b : UInt8} (h : step st b = some (st', us)) (h' : scan st' s = some (st'', vs)) :
    scan st (b :: s) = some (st'', us ++ vs) := by
  rw [scan, h, Option.bind_some, h', Option.map_some]

/-! ### Text -/

def written (b : UInt8) : Bytes :=
  if b = 38 then "&amp;" else if b = 60 then "&lt;" else if b = 62 then "&gt;" else [b]

/-- The text that a serializer writes for a text; the no-break space has two bytes. -/
def escape : Bytes → Bytes
  | [] => []
  | 194 :: 160 :: s => bytes "&nbsp;" ++ escape s
  | b :: s => written b ++ escape s

/-- Every line ends with a line feed; `cr` is whether a carriage return is in front. -/
def newlinesFrom (cr : Bool) : Bytes → Bytes
  | [] => []
  | b :: s =>
    if b = 13 then 10 :: newlinesFrom true s
    else if cr = true ∧ b = 10 then newlinesFrom false s
    else b :: newlinesFrom false s

def newlines (s : Bytes) : Bytes := newlinesFrom false s

/-- In text, behind a carriage return or not. -/
def inText (cr : Bool) : State := if cr then .carriageReturn else .data

theorem step_inText {b : UInt8} (cr : Bool) (hb : b ≠ 10) : step (inText cr) b = stepData b := by
  cases cr with
  | false => rfl
  | true => exact if_neg hb

theorem scan_byte (cr : Bool) {b : UInt8} (hamp : b ≠ 38) (hlt : b ≠ 60) :
    ∃ us, scan (inText cr) [b] = some (inText (b == 13), us) ∧
      ∀ s, (newlinesFrom cr (b :: s)).map .char = us ++ (newlinesFrom (b == 13) s).map .char := by
  by_cases hreturn : b = 13
  · subst hreturn
    refine ⟨[.char 10], ?_, fun s => rfl⟩
    cases cr <;> rfl
  have hfalse : (b == 13) = false := beq_false_of_ne hreturn
  rw [hfalse]
  by_cases hfeed : cr = true ∧ b = 10
  · obtain ⟨rfl, rfl⟩ := hfeed
    exact ⟨[], rfl, fun s => rfl⟩
  refine ⟨[.char b], ?_, fun s => ?_⟩
  · have hstep : step (inText cr) b = some (.data, [.char b]) := by
      cases cr with
      | false =>
        show stepData b = _
        rw [stepData, if_neg hamp, if_neg hlt, if_neg hreturn]
      | true =>
        rw [step_inText true fun h => hfeed ⟨rfl, h⟩, stepData, if_neg hamp, if_neg hlt,
          if_neg hreturn]
    rw [scan, hstep]
    rfl
  · rw [newlinesFrom, if_neg hreturn, if_neg hfeed]
    rfl

theorem scan_written (cr : Bool) (b : UInt8) :
    ∃ us, scan (inText cr) (written b) = some (inText (b == 13), us) ∧
      ∀ s, (newlinesFrom cr (b :: s)).map .char = us ++ (newlinesFrom (b == 13) s).map .char := by
  by_cases hamp : b = 38
  · subst hamp
    exact ⟨[.char 38], by cases cr <;> rfl, fun s => by cases cr <;> rfl⟩
  by_cases hlt : b = 60
  · subst hlt
    exact ⟨[.char 60], by cases cr <;> rfl, fun s => by cases cr <;> rfl⟩
  by_cases hgt : b = 62
  · subst hgt
    exact ⟨[.char 62], by cases cr <;> rfl, fun s => by cases cr <;> rfl⟩
  · rw [written, if_neg hamp, if_neg hlt, if_neg hgt]
    exact scan_byte cr hamp hlt

/-- **Escaped text is read as this text**, but for the line ends. -/
theorem scan_escape (cr : Bool) (s : Bytes) :
    ∃ cr', scan (inText cr) (escape s) = some (inText cr', (newlinesFrom cr s).map .char) := by
  fun_induction escape s generalizing cr with
  | case1 => exact ⟨cr, rfl⟩
  | case2 s ih =>
    obtain ⟨cr', h⟩ := ih false
    have hspace : scan (inText cr) "&nbsp;" = some (inText false, [.char 194, .char 160]) := by
      cases cr <;> rfl
    refine ⟨cr', (scan_append hspace h).trans ?_⟩
    cases cr <;> rfl
  | case3 b s hne ih =>
    obtain ⟨us, hus, hnewlines⟩ := scan_written cr b
    obtain ⟨cr', h⟩ := ih (b == 13)
    refine ⟨cr', ?_⟩
    rw [hnewlines]
    exact scan_append hus h

/-- A text that is written as it is, also between quotes. -/
def isPlain (s : Bytes) : Bool := s.all fun b => isValueByte b && b != 60 && b != 62 && b != 194

theorem isPlain_append {s t : Bytes} : isPlain (s ++ t) = (isPlain s && isPlain t) :=
  List.all_append

theorem escape_plain_append {s : Bytes} (hs : isPlain s = true) (t : Bytes) :
    escape (s ++ t) = s ++ escape t := by
  induction s with
  | nil => rfl
  | cons b s ih =>
    simp only [isPlain, isValueByte, List.all_cons, Bool.and_eq_true, bne_iff_ne] at hs
    obtain ⟨⟨⟨⟨⟨-, hamp⟩, hlt⟩, hgt⟩, hspace⟩, hrest⟩ := hs
    have hwritten : written b = [b] := by
      rw [written, if_neg hamp, if_neg hlt, if_neg hgt]
    have hcons : escape (b :: (s ++ t)) = written b ++ escape (s ++ t) := by
      rw [escape]
      exact fun _ heq _ => hspace heq
    rw [List.cons_append, hcons, hwritten, ih hrest]
    rfl

theorem escape_plain {s : Bytes} (hs : isPlain s = true) : escape s = s := by
  have h := escape_plain_append hs []
  rwa [List.append_nil, escape, List.append_nil] at h

theorem isPlain_decimal (n : Int) : isPlain (decimal n) = true := by
  have hrange : ∀ b : UInt8, 45 ≤ b → b ≤ 57 →
      (isValueByte b && b != 60 && b != 62 && b != 194) = true := by
    intro b hlow hhigh
    simp only [isValueByte, Bool.and_eq_true, bne_iff_ne]
    refine ⟨⟨⟨⟨⟨⟨?_, ?_⟩, ?_⟩, ?_⟩, ?_⟩, ?_⟩, ?_⟩ <;> rintro rfl <;> revert hlow hhigh <;> decide
  have hdigits : (ascii (Nat.toDigits 10 n.natAbs)).all
      (fun b => isValueByte b && b != 60 && b != 62 && b != 194) = true := by
    rw [List.all_eq_true]
    intro b hb
    obtain ⟨hlow, hhigh⟩ := ascii_toDigits_le _ b hb
    exact hrange b (UInt8.le_trans (by decide) hlow) hhigh
  unfold decimal
  split
  · rw [isPlain, List.all_cons, hdigits]
    rfl
  · exact hdigits

/-! ### Tags -/

def isName : Bytes → Bool
  | [] => false
  | b :: s => isLetter b && s.all isNameByte

def isValue (s : Bytes) : Bool := s.all isValueByte

theorem isValue_of_isPlain {s : Bytes} (h : isPlain s = true) : isValue s = true := by
  rw [isPlain, List.all_eq_true] at h
  rw [isValue, List.all_eq_true]
  intro b hb
  have hall := h b hb
  simp only [Bool.and_eq_true] at hall
  exact hall.1.1.1

/-- Names and values that stand for themselves, each name once. -/
def IsAttributes (attributes : Attributes) : Prop :=
  (∀ a ∈ attributes, isName a.1 = true ∧ isValue a.2 = true) ∧ (attributes.map (·.1)).Nodup

def writeAttribute (a : Bytes × Bytes) : Bytes :=
  [32] ++ a.1 ++ [61, 34] ++ a.2 ++ [34]

def startTag (name : Bytes) (attributes : Attributes) : Bytes :=
  [60] ++ name ++ attributes.flatMap writeAttribute ++ [62]

def endTag (name : Bytes) : Bytes := [60, 47] ++ name ++ [62]

theorem scan_grow {f : Bytes → State} {p : UInt8 → Bool}
    (hstep : ∀ n b, p b = true → step (f n) b = some (f (n ++ [b]), [])) {s : Bytes}
    (hs : s.all p = true) (n : Bytes) : scan (f n) s = some (f (n ++ s), []) := by
  induction s generalizing n with
  | nil => rw [List.append_nil]; rfl
  | cons b s ih =>
    rw [List.all_cons, Bool.and_eq_true] at hs
    have hrest := scan_cons (hstep n b hs.1) (ih hs.2 (n ++ [b]))
    rwa [List.append_assoc] at hrest

theorem scan_name {f : Bytes → State}
    (hstep : ∀ n b, isNameByte b = true → step (f n) b = some (f (n ++ [b]), []))
    (hfirst : ∀ b, isLetter b = true → step st b = some (f [b], [])) {name : Bytes}
    (hname : isName name = true) : scan st name = some (f name, []) := by
  cases name with
  | nil => cases hname
  | cons b s =>
    rw [isName, Bool.and_eq_true] at hname
    exact scan_cons (hfirst b hname.1) (scan_grow hstep hname.2 [b])

theorem ne_of_isLetter {b c : UInt8} (h : isLetter b = true) (hc : isLetter c = false) : b ≠ c := by
  rintro rfl
  rw [h] at hc
  cases hc

theorem scan_endTag (cr : Bool) {name : Bytes} (hname : isName name = true) :
    scan (inText cr) (endTag name) = some (.data, [.stop name]) := by
  have hopen : scan (inText cr) [60, 47] = some (.endTagOpen, []) := by cases cr <;> rfl
  have hbody : scan .endTagOpen name = some (.endTagName name, []) := by
    refine scan_name (f := .endTagName) ?_ ?_ hname
    · exact fun n b hb => if_pos hb
    · exact fun b hb => if_pos hb
  have hclose : scan (.endTagName name) [62] = some (.data, [.stop name]) := rfl
  exact scan_append (scan_append hopen hbody) hclose

theorem scan_attribute {name key value : Bytes} {attributes : Attributes}
    (hkey : isName key = true) (hvalue : isValue value = true)
    (hnew : key ∉ attributes.map (·.1)) :
    scan (.attribute name attributes) (key ++ [61, 34] ++ value ++ [34]) =
      some (.quotedEnd name (attributes ++ [(key, value)]), []) := by
  have hname : scan (.attribute name attributes) key =
      some (.attributeName name attributes key, []) := by
    refine scan_name (f := .attributeName name attributes) ?_ ?_ hkey
    · exact fun n b hb => if_pos hb
    · exact fun b hb => if_pos hb
  have hequals : scan (.attributeName name attributes key) [61, 34] =
      some (.quoted name attributes key [], []) := by
    have hstep : step (.attributeName name attributes key) 61 =
        some (.attributeValue name attributes key, []) := by
      rw [step, if_neg (by decide), if_pos ⟨rfl, hnew⟩]
    exact scan_cons hstep rfl
  have hquoted : scan (.quoted name attributes key []) value =
      some (.quoted name attributes key value, []) := by
    refine scan_grow (f := .quoted name attributes key) (p := isValueByte) ?_ hvalue []
    intro v b hb
    have hne : b ≠ 34 := by
      rintro rfl
      cases hb
    rw [step, if_neg hne, if_pos hb]
  exact scan_append (scan_append (scan_append hname hequals) hquoted) rfl

def Behind (st : State) (name : Bytes) (attributes : Attributes) : Prop :=
  ∀ b, isNameByte b = false → step st b = stepTag name attributes b

theorem scan_attributes {name : Bytes} {as bs : Attributes} (h : Behind st name as)
    (hattributes : IsAttributes (as ++ bs)) :
    scan st (bs.flatMap writeAttribute ++ [62]) = some (.data, [.start name (as ++ bs)]) := by
  induction bs generalizing st as with
  | nil =>
    rw [List.append_nil]
    exact scan_cons (h 62 rfl) rfl
  | cons a bs ih =>
    obtain ⟨key, value⟩ := a
    obtain ⟨hparts, hnodup⟩ := hattributes
    obtain ⟨hkey, hvalue⟩ := hparts (key, value) (by simp)
    have hnew : key ∉ as.map (·.1) := by
      intro hmem
      rw [List.map_append, List.map_cons, List.nodup_append] at hnodup
      exact hnodup.2.2 key hmem key (by simp) rfl
    have hspace : scan st [32] = some (.attribute name as, []) := scan_cons (h 32 rfl) rfl
    have hone := scan_append hspace (@scan_attribute name key value as hkey hvalue hnew)
    have hassoc : as ++ (key, value) :: bs = (as ++ [(key, value)]) ++ bs := by simp
    rw [hassoc] at hparts hnodup ⊢
    have hbehind : Behind (.quotedEnd name (as ++ [(key, value)])) name (as ++ [(key, value)]) :=
      fun b _ => rfl
    have hrest := ih hbehind ⟨hparts, hnodup⟩
    have hall := scan_append hone hrest
    simpa [writeAttribute] using hall

theorem scan_startTag (cr : Bool) {name : Bytes} {attributes : Attributes}
    (hname : isName name = true) (hattributes : IsAttributes attributes) :
    scan (inText cr) (startTag name attributes) = some (.data, [.start name attributes]) := by
  have hopen : scan (inText cr) [60] = some (.tagOpen, []) := by cases cr <;> rfl
  have hbody : scan .tagOpen name = some (.tagName name, []) := by
    refine scan_name (f := .tagName) ?_ ?_ hname
    · exact fun n b hb => if_pos hb
    · intro b hb
      rw [step, if_neg (ne_of_isLetter hb rfl), if_pos hb]
  have hrest : scan (.tagName name) (attributes.flatMap writeAttribute ++ [62]) =
      some (.data, [.start name attributes]) := by
    have hbehind : Behind (.tagName name) name [] := by
      intro b hb
      rw [step, if_neg (by simp [hb])]
    exact scan_attributes hbehind hattributes
  have hall := scan_append (scan_append hopen hbody) hrest
  rwa [← List.append_assoc] at hall

/-! ### Trees -/

inductive Dom
  | text (s : Bytes)
  | element (name : Bytes) (attributes : Attributes) (children : List Dom)

/-- Where an element may begin, given the elements that are open, and whether a line feed right
behind its start tag is dropped. -/
structure Content where
  fits : List Bytes → Bytes → Bool
  skips : Bytes → Bool

/-- An element that is open, with what is in front of it. -/
structure Frame where
  name : Bytes
  attributes : Attributes
  before : List Dom

def addChar (trees : List Dom) (b : UInt8) : List Dom :=
  match trees.getLast? with
  | some (.text s) => trees.dropLast ++ [.text (s ++ [b])]
  | _ => trees ++ [.text [b]]

section Content

variable (content : Content)

/-- The tree of the tokens.  A NUL is dropped, and elements are closed by their own end tag. -/
def build : List Frame → List Dom → Bool → List Token → Option (List Dom)
  | [], trees, _, [] => some trees
  | _ :: _, _, _, [] => none
  | stack, trees, skip, .char b :: ts =>
    if b = 0 ∨ skip = true ∧ b = 10 then build stack trees false ts
    else build stack (addChar trees b) false ts
  | stack, trees, _, .start name attributes :: ts =>
    if content.fits (stack.map (·.name)) name = true then
      build (⟨name, attributes, trees⟩ :: stack) [] (content.skips name) ts
    else none
  | [], _, _, .stop _ :: _ => none
  | frame :: stack, trees, _, .stop name :: ts =>
    if frame.name = name then
      build stack (frame.before ++ [.element name frame.attributes trees]) false ts
    else none

/-- The forest that a text is read as. -/
def read (s : Bytes) : Option (List Dom) :=
  (scan .data s).bind fun x => if x.1 = .data ∨ x.1 = .carriageReturn then
    build content [] [] false x.2 else none

end Content

mutual

def Dom.render : Dom → Bytes
  | .text s => escape s
  | .element name attributes children =>
    startTag name attributes ++ renderAll children ++ endTag name

def renderAll : List Dom → Bytes
  | [] => []
  | t :: ts => t.render ++ renderAll ts

end

mutual

def Dom.tokens : Dom → List Token
  | .text s => (newlines s).map .char
  | .element name attributes children =>
    .start name attributes :: (tokensAll children ++ [.stop name])

def tokensAll : List Dom → List Token
  | [] => []
  | t :: ts => t.tokens ++ tokensAll ts

end

def shownText (skip : Bool) (s : Bytes) : Bytes :=
  let s := newlines s
  (if skip = true ∧ s.head? = some 10 then s.tail else s).filter (· ≠ 0)

/-- There is no empty text. -/
def textNode (s : Bytes) : List Dom := if s = [] then [] else [.text s]

mutual

/-- What is shown of a tree; `skip` is whether a line feed is dropped in front. -/
def Dom.shown (content : Content) (skip : Bool) : Dom → List Dom
  | .text s => textNode (shownText skip s)
  | .element name attributes children =>
    [.element name attributes (shownAll content (content.skips name) children)]

def shownAll (content : Content) (skip : Bool) : List Dom → List Dom
  | [] => []
  | t :: ts => t.shown content skip ++ shownAll content false ts

end

theorem renderAll_append (ts us : List Dom) :
    renderAll (ts ++ us) = renderAll ts ++ renderAll us := by
  induction ts with
  | nil => rfl
  | cons t ts ih => rw [List.cons_append, renderAll, renderAll, ih, List.append_assoc]

theorem renderAll_textNode (s : Bytes) : renderAll (textNode s) = escape s := by
  unfold textNode
  split
  · next hs => rw [hs]; rfl
  · exact List.append_nil _

def Dom.IsText : Dom → Prop
  | .text _ => True
  | .element .. => False

mutual

def Dom.Fits (content : Content) (opened : List Bytes) : Dom → Prop
  | .text s => s ≠ []
  | .element name attributes children =>
    isName name = true ∧ IsAttributes attributes ∧ content.fits opened name = true ∧
      FitAll content (name :: opened) children

/-- The trees can be written out one after the other: two texts would be one. -/
def FitAll (content : Content) (opened : List Bytes) : List Dom → Prop
  | [] => True
  | t :: ts => t.Fits content opened ∧ (t.IsText → ∀ t' ∈ ts.head?, ¬ t'.IsText) ∧
      FitAll content opened ts

end

variable {content : Content}

theorem isAttributes_single {key value : Bytes} (hkey : isName key = true)
    (hvalue : isValue value = true) : IsAttributes [(key, value)] :=
  ⟨fun a ha => List.mem_singleton.mp ha ▸ ⟨hkey, hvalue⟩, by simp⟩

theorem fitAll_textNode {opened : List Bytes} (s : Bytes) : FitAll content opened (textNode s) := by
  unfold textNode
  split
  · trivial
  · next hs =>
    refine ⟨hs, ?_, trivial⟩
    intro _ t ht
    cases ht

/-- A text, with an element behind it or nothing. -/
theorem fitAll_text {opened : List Bytes} {s : Bytes} {ts : List Dom} (hs : s ≠ [])
    (hnext : ∀ t ∈ ts.head?, ¬ t.IsText) (h : FitAll content opened ts) :
    FitAll content opened (.text s :: ts) := ⟨hs, fun _ => hnext, h⟩

theorem fitAll_element {opened : List Bytes} {t : Dom} {ts : List Dom}
    (ht : t.Fits content opened) (hnot : ¬ t.IsText) (h : FitAll content opened ts) :
    FitAll content opened (t :: ts) := ⟨ht, fun htext => absurd htext hnot, h⟩

theorem fitAll_elements {opened : List Bytes} {ts : List Dom}
    (h : ∀ t ∈ ts, t.Fits content opened ∧ ¬ t.IsText) : FitAll content opened ts := by
  induction ts with
  | nil => trivial
  | cons t ts ih =>
    obtain ⟨hfits, hnot⟩ := h t List.mem_cons_self
    exact fitAll_element hfits hnot (ih fun t' ht' => h t' (List.mem_cons_of_mem t ht'))

mutual

/-- **A tree that is written out is read as its tokens.** -/
theorem scan_render {opened : List Bytes} (t : Dom) (h : t.Fits content opened) (cr : Bool)
    (hcr : t.IsText → cr = false) :
    ∃ cr', scan (inText cr) t.render = some (inText cr', t.tokens) ∧
      (¬ t.IsText → cr' = false) := by
  cases t with
  | text s =>
    obtain rfl := hcr trivial
    obtain ⟨cr', hs⟩ := scan_escape false s
    exact ⟨cr', hs, fun hnot => absurd trivial hnot⟩
  | element name attributes children =>
    obtain ⟨hname, hattributes, -, hchildren⟩ := h
    obtain ⟨cr', hc⟩ := scan_renderAll children hchildren false fun _ _ _ => rfl
    have hstart := scan_startTag cr hname hattributes
    have hall := scan_append (scan_append hstart hc) (scan_endTag cr' hname)
    exact ⟨false, hall, fun _ => rfl⟩

theorem scan_renderAll {opened : List Bytes} (ts : List Dom) (h : FitAll content opened ts)
    (cr : Bool) (hcr : ∀ t ∈ ts.head?, t.IsText → cr = false) :
    ∃ cr', scan (inText cr) (renderAll ts) = some (inText cr', tokensAll ts) := by
  cases ts with
  | nil => exact ⟨cr, rfl⟩
  | cons t ts =>
    obtain ⟨ht, hnext, hts⟩ := h
    obtain ⟨cr', hscan, hcr'⟩ := scan_render t ht cr (hcr t rfl)
    have hnext' : ∀ t' ∈ ts.head?, t'.IsText → cr' = false := by
      intro t' ht' htext'
      by_cases htext : t.IsText
      · exact absurd htext' (hnext htext t' ht')
      · exact hcr' htext
    obtain ⟨cr'', hrest⟩ := scan_renderAll ts hts cr' hnext'
    exact ⟨cr'', scan_append hscan hrest⟩

end

/-! ### From the tokens to the tree -/

/-- The last tree is no text. -/
def Closed (trees : List Dom) : Prop := ∀ t ∈ trees.getLast?, ¬ t.IsText

section Build

variable {stack : List Frame} {trees : List Dom} {rest : List Token}

theorem addChar_textNode (h : Closed trees) (s : Bytes) (b : UInt8) :
    addChar (trees ++ textNode s) b = trees ++ textNode (s ++ [b]) := by
  have hnode : textNode (s ++ [b]) = [.text (s ++ [b])] := if_neg (by simp)
  rw [hnode]
  by_cases hs : s = []
  · rw [hs, textNode, if_pos rfl, List.append_nil, List.nil_append, addChar]
    split
    · next text hlast => exact absurd trivial (h _ hlast)
    · rfl
  · rw [textNode, if_neg hs, addChar, List.getLast?_concat, List.dropLast_concat]

theorem build_chars (h : Closed trees) (s u : Bytes) :
    build content stack (trees ++ textNode s) false (u.map .char ++ rest) =
      build content stack (trees ++ textNode (s ++ u.filter (· ≠ 0))) false rest := by
  induction u generalizing s with
  | nil => rw [List.filter_nil, List.append_nil]; rfl
  | cons b u ih =>
    rw [List.map_cons, List.cons_append, build]
    by_cases hb : b = 0
    · rw [if_pos (.inl hb), ih, List.filter_cons_of_neg (by simpa using hb)]
    · rw [if_neg (by simp [hb]), addChar_textNode h, ih,
        List.filter_cons_of_pos (by simpa using hb), List.append_assoc]
      rfl

theorem newlines_ne_nil {s : Bytes} (hs : s ≠ []) : newlines s ≠ [] := by
  cases s with
  | nil => exact absurd rfl hs
  | cons b s =>
    rw [newlines, newlinesFrom]
    split
    · simp
    · simp

/-- **A text** is added as it is shown. -/
theorem build_text (h : Closed trees) {s : Bytes} (hs : s ≠ []) (skip : Bool) :
    build content stack trees skip ((newlines s).map .char ++ rest) =
      build content stack (trees ++ textNode (shownText skip s)) false rest := by
  unfold shownText
  cases hnew : newlines s with
  | nil => exact absurd hnew (newlines_ne_nil hs)
  | cons b u =>
    have hnil : trees ++ textNode [] = trees := by rw [textNode, if_pos rfl, List.append_nil]
    rw [List.map_cons, List.cons_append, build]
    by_cases hskip : skip = true ∧ b = 10
    · obtain ⟨rfl, rfl⟩ := hskip
      have hchars := @build_chars content stack trees rest h [] u
      rw [hnil] at hchars
      rw [if_pos (.inr ⟨rfl, rfl⟩), hchars]
      rfl
    · have hhead : ¬ (skip = true ∧ (b :: u).head? = some 10) := fun hboth =>
        hskip ⟨hboth.1, Option.some.inj hboth.2⟩
      dsimp only
      rw [if_neg hhead]
      by_cases hb : b = 0
      · have hchars := @build_chars content stack trees rest h [] u
        rw [hnil] at hchars
        rw [if_pos (.inl hb), hchars, List.filter_cons_of_neg (by simpa using hb)]
        rfl
      · have hadd := addChar_textNode h [] b
        rw [hnil] at hadd
        rw [if_neg (by simpa [hb] using hskip), hadd, build_chars h,
          List.filter_cons_of_pos (by simpa using hb)]
        rfl

end Build

mutual

/-- **The tokens of a tree** are added as the tree is shown. -/
theorem build_tokens (stack : List Frame) (t : Dom) (h : t.Fits content (stack.map (·.name)))
    (trees : List Dom) (skip : Bool) (hclosed : t.IsText → Closed trees) (rest : List Token) :
    build content stack trees skip (t.tokens ++ rest) =
      build content stack (trees ++ t.shown content skip) false rest := by
  cases t with
  | text s => exact build_text (hclosed trivial) h skip
  | element name attributes children =>
    obtain ⟨-, -, hfits, hchildren⟩ := h
    obtain ⟨skip', hall⟩ := build_tokensAll (⟨name, attributes, trees⟩ :: stack) children
      hchildren [] (content.skips name) (fun _ _ _ t ht => nomatch ht) (.stop name :: rest)
    have htokens : (Dom.element name attributes children).tokens ++ rest =
        .start name attributes :: (tokensAll children ++ .stop name :: rest) := by
      simp [Dom.tokens]
    rw [htokens, build, if_pos hfits, hall, build, if_pos rfl]
    rfl

theorem build_tokensAll (stack : List Frame) (ts : List Dom)
    (h : FitAll content (stack.map (·.name)) ts) (trees : List Dom) (skip : Bool)
    (hclosed : ∀ t ∈ ts.head?, t.IsText → Closed trees) (rest : List Token) :
    ∃ skip', build content stack trees skip (tokensAll ts ++ rest) =
      build content stack (trees ++ shownAll content skip ts) skip' rest := by
  cases ts with
  | nil => exact ⟨skip, by simp [tokensAll, shownAll]⟩
  | cons t ts =>
    obtain ⟨ht, hnext, hts⟩ := h
    have hone := build_tokens stack t ht trees skip (hclosed t rfl) (tokensAll ts ++ rest)
    have hclosed' : ∀ t' ∈ ts.head?, t'.IsText → Closed (trees ++ t.shown content skip) := by
      intro t' ht' htext'
      cases t with
      | text s => exact absurd htext' (hnext trivial t' ht')
      | element name attributes children =>
        intro last hlast
        rw [Dom.shown, List.getLast?_concat] at hlast
        cases hlast
        exact id
    obtain ⟨skip', hrest⟩ := build_tokensAll stack ts hts (trees ++ t.shown content skip) false hclosed'
      rest
    refine ⟨skip', ?_⟩
    rw [tokensAll, List.append_assoc, hone, hrest, shownAll, List.append_assoc]

end

/-- **Round trip.** A forest that is written out is read as this forest, each text as it is
shown. -/
theorem read_renderAll {ts : List Dom} (h : FitAll content [] ts) :
    read content (renderAll ts) = some (shownAll content false ts) := by
  obtain ⟨cr, hscan⟩ := scan_renderAll ts h false fun _ _ _ => rfl
  obtain ⟨skip, hbuild⟩ := build_tokensAll [] ts h [] false
    (fun _ _ _ t ht => nomatch ht) []
  rw [List.append_nil] at hbuild
  have hresting : inText cr = .data ∨ inText cr = .carriageReturn := by
    cases cr with
    | false => exact .inl rfl
    | true => exact .inr rfl
  have hread : scan .data (renderAll ts) = some (inText cr, tokensAll ts) := hscan
  rw [read, hread]
  exact (if_pos hresting).trans hbuild

end Ocpe.Lib.Markup
