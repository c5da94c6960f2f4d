import Mathlib.Algebra.Group.Int.Defs
import Ocpe.Lib.Bytes

/-!
# JSON values

The values of a C++ JSON library of the usual kind: strings are byte strings,
an object is a map from keys to values in key order, integers and floating-point
numbers are told apart.

* `Json.set` is `j[key] = v` and `Json.value` is `j.value(key, default)`, with the
  exceptions they throw.  `objFind_objSet` is the one fact about reading after
  writing.
* `Utf8` and `Plain` are the two conditions on a whole value that matter for
  its text: every string is UTF-8, and it is built from 64-bit integers, strings
  and objects in key order only.
* `JsonFormat` is what a program may rely on about `parse` and `dump`.
-/

namespace Ocpe.Lib

inductive Json where
  | null
  | bool (b : Bool)
  | int (n : Int)
  /-- A number with a fraction or an exponent: `mantissa * 10 ^ exponent`. -/
  | float (mantissa exponent : Int)
  | str (s : Bytes)
  | arr (l : List Json)
  | obj (l : List (Bytes × Json))

abbrev Fields := List (Bytes × Json)

@[simp] theorem ok_bind {ε α β : Type} (a : α) (f : α → Except ε β) :
    ((Except.ok a : Except ε α) >>= f) = f a := rfl

@[simp] theorem error_bind {ε α β : Type} (e : ε) (f : α → Except ε β) :
    ((Except.error e : Except ε α) >>= f) = .error e := rfl

theorem bind_eq_ok {ε α β : Type} {x : Except ε α} {f : α → Except ε β} {b : β} :
    x >>= f = .ok b ↔ ∃ a, x = .ok a ∧ f a = .ok b := by
  cases x with
  | error e => exact ⟨nofun, nofun⟩
  | ok a =>
    constructor
    · intro h
      exact ⟨a, rfl, h⟩
    · rintro ⟨_, h, hb⟩
      cases h
      exact hb

theorem mapError_eq_ok {ε ε' α : Type} {x : Except ε α} {f : ε → ε'} {a : α} :
    x.mapError f = .ok a ↔ x = .ok a := by
  cases x <;> simp [Except.mapError]

inductive JsonError where
  | parseError
  | typeError (id : Nat)
  deriving DecidableEq, Repr

/-- Induction over a value: a statement about an array or an object may use it
of every member. -/
theorem Json.induct {motive : Json → Prop} (null : motive .null)
    (bool : ∀ b, motive (.bool b)) (int : ∀ n, motive (.int n))
    (float : ∀ m e, motive (.float m e)) (str : ∀ s, motive (.str s))
    (arr : ∀ l : List Json, (∀ j ∈ l, motive j) → motive (.arr l))
    (obj : ∀ l : Fields, (∀ f ∈ l, motive f.2) → motive (.obj l)) (j : Json) : motive j :=
  @Json.rec motive (fun l => ∀ j ∈ l, motive j) (fun l => ∀ f ∈ l, motive f.2)
    (fun f => motive f.2)
    null bool int float str arr obj (by simp)
    (fun _ _ hj hl => List.forall_mem_cons.mpr ⟨hj, hl⟩) (by simp)
    (fun _ _ hf hl => List.forall_mem_cons.mpr ⟨hf, hl⟩) (fun _ _ h => h) j

/-! ### Keys and objects -/

/-- The byte order in which an object keeps its keys. -/
def keyLt : Bytes → Bytes → Bool
  | _, [] => false
  | [], _ :: _ => true
  | a :: s, b :: t => decide (a < b) || (decide (a = b) && keyLt s t)

theorem keyLt_cons {a b : UInt8} {s t : Bytes} :
    keyLt (a :: s) (b :: t) = true ↔ a < b ∨ (a = b ∧ keyLt s t = true) := by
  simp [keyLt]

theorem keyLt_irrefl (s : Bytes) : keyLt s s = false := by
  induction s with
  | nil => rfl
  | cons a s ih => simp [keyLt, ih]

theorem keyLt_trans : ∀ {s t u : Bytes}, keyLt s t = true → keyLt t u = true → keyLt s u = true
  | _, _, [], _, h => by simp [keyLt] at h
  | _, [], _ :: _, h, _ => by simp [keyLt] at h
  | [], _ :: _, _ :: _, _, _ => rfl
  | a :: s, b :: t, c :: u, h1, h2 => by
    rw [keyLt_cons] at *
    rcases h1 with h1 | ⟨rfl, h1⟩ <;> rcases h2 with h2 | ⟨rfl, h2⟩
    · exact Or.inl (UInt8.lt_trans h1 h2)
    · exact Or.inl h1
    · exact Or.inl h2
    · exact Or.inr ⟨rfl, keyLt_trans h1 h2⟩

theorem keyLt_of_not : ∀ {s t : Bytes}, keyLt s t = false → s ≠ t → keyLt t s = true
  | [], [], _, h => absurd rfl h
  | _ :: _, [], _, _ => rfl
  | [], _ :: _, h, _ => by simp [keyLt] at h
  | a :: s, b :: t, h, hne => by
    have hn : ¬ (a < b ∨ (a = b ∧ keyLt s t = true)) := by rw [← keyLt_cons, h]; simp
    rw [not_or, not_and] at hn
    rw [keyLt_cons]
    by_cases hab : a = b
    · subst hab
      refine Or.inr ⟨rfl, keyLt_of_not (by simpa using hn.2 rfl) fun hst => hne (by rw [hst])⟩
    · refine Or.inl ?_
      rw [UInt8.lt_iff_toNat_lt] at hn ⊢
      have : a.toNat ≠ b.toNat := fun h => hab (UInt8.toNat_inj.mp h)
      omega

def objSet (k : Bytes) (v : Json) : Fields → Fields
  | [] => [(k, v)]
  | (k', v') :: l =>
      if keyLt k k' then (k, v) :: (k', v') :: l
      else if k = k' then (k, v) :: l
      else (k', v') :: objSet k v l

def objFind (k : Bytes) : Fields → Option Json
  | [] => none
  | (k', v) :: l => if k = k' then some v else objFind k l

@[simp] theorem objFind_nil (k : Bytes) : objFind k [] = none := rfl

/-- **Reading after writing.** -/
@[simp] theorem objFind_objSet (k k' : Bytes) (v : Json) (l : Fields) :
    objFind k' (objSet k v l) = if k' = k then some v else objFind k' l := by
  induction l with
  | nil => rfl
  | cons f l ih =>
    obtain ⟨k₁, v₁⟩ := f
    simp only [objSet]
    split
    · rfl
    · split
      · next h => subst h; simp only [objFind]; split <;> rfl
      · next hlt hne =>
        simp only [objFind, ih]
        by_cases h1 : k' = k₁
        · subst h1
          rw [if_pos rfl, if_neg fun h => hne h.symm, if_pos rfl]
        · rw [if_neg h1, if_neg h1]

/-- The keys ascend, so each stands once. -/
def KeysAscend (l : Fields) : Prop := l.Pairwise fun f g => keyLt f.1 g.1 = true

theorem mem_objSet {k : Bytes} {v : Json} {l : Fields} {f : Bytes × Json}
    (h : f ∈ objSet k v l) : f = (k, v) ∨ f ∈ l := by
  induction l with
  | nil => simpa [objSet] using h
  | cons g l ih =>
    simp only [objSet] at h
    split at h
    · simpa using h
    · split at h
      · rcases List.mem_cons.mp h with h | h
        · exact Or.inl h
        · exact Or.inr (List.mem_cons_of_mem _ h)
      · rcases List.mem_cons.mp h with h | h
        · exact Or.inr (h ▸ List.mem_cons_self)
        · exact (ih h).imp_right (List.mem_cons_of_mem _)

theorem keysAscend_objSet {k : Bytes} {v : Json} {l : Fields} (hl : KeysAscend l) :
    KeysAscend (objSet k v l) := by
  induction l with
  | nil => simp [objSet, KeysAscend]
  | cons g l ih =>
    obtain ⟨k₁, v₁⟩ := g
    obtain ⟨hg, ht⟩ := List.pairwise_cons.mp hl
    simp only [objSet]
    split
    · next hlt =>
      refine List.pairwise_cons.mpr ⟨fun f hf => ?_, hl⟩
      rcases List.mem_cons.mp hf with rfl | hf
      · exact hlt
      · exact keyLt_trans hlt (hg f hf)
    · next hlt =>
      split
      · next he => subst he; exact List.pairwise_cons.mpr ⟨fun f hf => hg f hf, ht⟩
      · next hne =>
        refine List.pairwise_cons.mpr ⟨fun f hf => ?_, ih ht⟩
        rcases mem_objSet hf with rfl | hf
        · exact keyLt_of_not (by simpa using hlt) hne
        · exact hg f hf

theorem objSet_last {k : Bytes} {v : Json} {l : Fields}
    (h : ∀ f ∈ l, keyLt f.1 k = true) : objSet k v l = l ++ [(k, v)] := by
  induction l with
  | nil => rfl
  | cons g l ih =>
    obtain ⟨k₁, v₁⟩ := g
    have hk : keyLt k₁ k = true := h _ List.mem_cons_self
    have hn : ¬ keyLt k k₁ = true := fun h' => by
      have := keyLt_trans hk h'
      rw [keyLt_irrefl] at this
      simp at this
    have hne : k ≠ k₁ := by
      rintro rfl
      rw [keyLt_irrefl] at hk
      simp at hk
    rw [objSet, if_neg hn, if_neg hne, ih fun f hf => h f (List.mem_cons_of_mem _ hf),
      List.cons_append]

/-! ### Reading and writing a value -/

/-- `j[key] = v`; a null value becomes an object first. -/
def Json.set (j : Json) (k : Bytes) (v : Json) : Json :=
  match j with
  | .obj l => .obj (objSet k v l)
  | _ => .obj (objSet k v [])

/-- `j.contains(key)` and `j[key]` together. -/
def Json.find? (j : Json) (k : Bytes) : Option Json :=
  match j with
  | .obj l => objFind k l
  | _ => none

/-- `j.value(key, default)`: 306 on a value that is no object, 302 on a member
that does not convert. -/
def Json.value {α : Type} (conv : Json → Option α) (j : Json) (k : Bytes) (dflt : α) :
    Except JsonError α :=
  match j with
  | .obj l =>
    match objFind k l with
    | some v =>
      match conv v with
      | some a => .ok a
      | none => .error (.typeError 302)
    | none => .ok dflt
  | _ => .error (.typeError 306)

/-- `get<std::string>()` -/
def Json.asString : Json → Option Bytes
  | .str s => some s
  | _ => none

/-- `get<int>()`: any number, and a boolean, reduced to 32 bits. -/
def Json.asInt : Json → Option Int32
  | .int n => some (Int32.ofInt n)
  | .bool b => some (if b then 1 else 0)
  | .float m e =>
      some (Int32.ofInt (if 0 ≤ e then m * 10 ^ e.toNat else m.tdiv (10 ^ (-e).toNat)))
  | _ => none

abbrev Json.valueStr := Json.value Json.asString

abbrev Json.valueInt := Json.value Json.asInt

@[simp] theorem set_null (k : Bytes) (v : Json) : Json.null.set k v = .obj (objSet k v []) := rfl

@[simp] theorem set_obj (l : Fields) (k : Bytes) (v : Json) :
    (Json.obj l).set k v = .obj (objSet k v l) := rfl

@[simp] theorem find?_obj (l : Fields) (k : Bytes) : (Json.obj l).find? k = objFind k l := rfl

/-! ### Conditions on a whole value -/

mutual

/-- `P` holds of the value and of every value inside it. -/
def Json.Everywhere (P : Json → Prop) : Json → Prop
  | .arr l => P (.arr l) ∧ Json.EverywhereList P l
  | .obj l => P (.obj l) ∧ Json.EverywhereFields P l
  | j => P j

def Json.EverywhereList (P : Json → Prop) : List Json → Prop
  | [] => True
  | j :: l => Json.Everywhere P j ∧ Json.EverywhereList P l

def Json.EverywhereFields (P : Json → Prop) : Fields → Prop
  | [] => True
  | (_, v) :: l => Json.Everywhere P v ∧ Json.EverywhereFields P l

end

section Everywhere

variable {P : Json → Prop}

theorem everywhereList_iff {l : List Json} :
    Json.EverywhereList P l ↔ ∀ j ∈ l, Json.Everywhere P j := by
  induction l with
  | nil => simp [Json.EverywhereList]
  | cons j l ih => simp [Json.EverywhereList, ih]

theorem everywhereFields_iff {l : Fields} :
    Json.EverywhereFields P l ↔ ∀ f ∈ l, Json.Everywhere P f.2 := by
  induction l with
  | nil => simp [Json.EverywhereFields]
  | cons f l ih => simp [Json.EverywhereFields, ih]

@[simp] theorem everywhere_arr {l : List Json} :
    Json.Everywhere P (.arr l) ↔ P (.arr l) ∧ ∀ j ∈ l, Json.Everywhere P j := by
  rw [Json.Everywhere, everywhereList_iff]

@[simp] theorem everywhere_obj {l : Fields} :
    Json.Everywhere P (.obj l) ↔ P (.obj l) ∧ ∀ f ∈ l, Json.Everywhere P f.2 := by
  rw [Json.Everywhere, everywhereFields_iff]

theorem Json.Everywhere.self {j : Json} (h : Json.Everywhere P j) : P j := by
  cases j <;> simp_all [Json.Everywhere]

end Everywhere

def Json.Utf8 : Json → Prop := Json.Everywhere fun
  | .str s => ValidUtf8 s
  | .obj l => ∀ f ∈ l, ValidUtf8 f.1
  | _ => True

/-- The value has no floating-point number, its integers fit 64 bits and its
objects are in key order. -/
def Json.Plain : Json → Prop := Json.Everywhere fun
  | .int n => -(2 ^ 63) ≤ n ∧ n < 2 ^ 64
  | .float _ _ => False
  | .obj l => KeysAscend l
  | _ => True

theorem plain_set {j v : Json} {k : Bytes} (hj : j.Plain) (hv : v.Plain) :
    (j.set k v).Plain := by
  have key : ∀ l : Fields, KeysAscend l → (∀ f ∈ l, f.2.Plain) →
      (Json.obj (objSet k v l)).Plain := by
    intro l h1 h2
    refine everywhere_obj.mpr ⟨keysAscend_objSet h1, fun f hf => ?_⟩
    rcases mem_objSet hf with rfl | hf
    · exact hv
    · exact h2 f hf
  cases j with
  | obj l =>
    obtain ⟨h1, h2⟩ := everywhere_obj.mp hj
    exact key l h1 h2
  | _ => exact key [] (by simp [KeysAscend]) (by simp)

theorem utf8_find? {j v : Json} {k : Bytes} (hj : j.Utf8) (h : j.find? k = some v) : v.Utf8 := by
  cases j with
  | obj l =>
    obtain ⟨-, hl⟩ := everywhere_obj.mp hj
    have hmem : ∀ l : Fields, objFind k l = some v → ∃ f ∈ l, f.2 = v := by
      intro l
      induction l with
      | nil => simp
      | cons f l ih =>
        obtain ⟨k', v'⟩ := f
        simp only [objFind]
        split
        · intro hv
          exact ⟨_, List.mem_cons_self, Option.some.inj hv⟩
        · intro hv
          obtain ⟨f, hf, he⟩ := ih hv
          exact ⟨f, List.mem_cons_of_mem _ hf, he⟩
    obtain ⟨f, hf, rfl⟩ := hmem l h
    exact hl f hf
  | _ => simp [Json.find?] at h

theorem utf8_valueStr {j : Json} {k dflt s : Bytes} (hj : j.Utf8) (hdflt : ValidUtf8 dflt)
    (h : j.valueStr k dflt = .ok s) : ValidUtf8 s := by
  cases j with
  | obj l =>
    simp only [Json.value] at h
    cases hfind : objFind k l with
    | none =>
      rw [hfind] at h
      cases h
      exact hdflt
    | some v =>
      rw [hfind] at h
      have hv : v.Utf8 := utf8_find? hj hfind
      cases v with
      | str t => cases h; exact hv.self
      | _ => cases h
  | _ => cases h

theorem utf8_objSet_iff {k : Bytes} {v : Json} {l : Fields} (h : objFind k l = none) :
    (Json.obj (objSet k v l)).Utf8 ↔ ValidUtf8 k ∧ v.Utf8 ∧ (Json.obj l).Utf8 := by
  have key : ∀ Q : Bytes × Json → Prop,
      (∀ f ∈ objSet k v l, Q f) ↔ Q (k, v) ∧ ∀ f ∈ l, Q f := by
    intro Q
    induction l with
    | nil => simp [objSet]
    | cons f l ih =>
      obtain ⟨k', v'⟩ := f
      simp only [objFind] at h
      split at h
      · simp at h
      · next hne =>
        simp only [objSet, if_neg hne]
        split
        · simp
        · simp only [List.forall_mem_cons, ih h]
          exact and_left_comm
  simp only [Json.Utf8, everywhere_obj, key]
  exact ⟨fun ⟨⟨h1, h2⟩, h3, h4⟩ => ⟨h1, h3, h2, h4⟩, fun ⟨h1, h3, h2, h4⟩ => ⟨⟨h1, h2⟩, h3, h4⟩⟩

@[simp] theorem utf8_str {s : Bytes} : (Json.str s).Utf8 ↔ ValidUtf8 s := Iff.rfl

@[simp] theorem utf8_int {n : Int} : (Json.int n).Utf8 := trivial

@[simp] theorem utf8_arr {l : List Json} : (Json.arr l).Utf8 ↔ ∀ j ∈ l, j.Utf8 := by
  simp [Json.Utf8]

@[simp] theorem utf8_objSet_nil {k : Bytes} {v : Json} :
    (Json.obj (objSet k v [])).Utf8 ↔ ValidUtf8 k ∧ v.Utf8 := by
  rw [utf8_objSet_iff (objFind_nil k)]
  simp [Json.Utf8]

@[simp] theorem plain_str {s : Bytes} : (Json.str s).Plain := trivial

@[simp] theorem plain_null : Json.null.Plain := trivial

@[simp] theorem plain_arr {l : List Json} : (Json.arr l).Plain ↔ ∀ j ∈ l, j.Plain := by
  simp [Json.Plain]

@[simp] theorem plain_int32 (n : Int32) : (Json.int n.toInt).Plain := by
  have h1 := n.le_toInt
  have h2 := n.toInt_lt
  simp only [Json.Plain, Json.Everywhere]
  omega

/-! ### Text -/

/-- What a program relies on about the text of a value.  `dump` throws on a
string that is not UTF-8 and on nothing else; `parse` accepts UTF-8 only, gives
objects in key order and undoes `dump`. -/
structure JsonFormat where
  parse : Bytes → Option Json
  dump : Json → Option Bytes
  dump_isSome : ∀ j, (dump j).isSome = true ↔ j.Utf8
  parse_dump : ∀ j b, j.Plain → dump j = some b → parse b = some j
  parse_utf8 : ∀ b j, parse b = some j → j.Utf8

/-- `parse(s)`, with its exception. -/
def JsonFormat.parseText (F : JsonFormat) (s : Bytes) : Except JsonError Json :=
  match F.parse s with
  | some j => .ok j
  | none => .error .parseError

/-- `j.dump()`, with its exception. -/
def JsonFormat.dumpText (F : JsonFormat) (j : Json) : Except JsonError Bytes :=
  match F.dump j with
  | some b => .ok b
  | none => .error (.typeError 316)

theorem JsonFormat.dump_eq_none_iff (F : JsonFormat) {j : Json} : F.dump j = none ↔ ¬ j.Utf8 := by
  rw [← F.dump_isSome, Option.not_isSome_iff_eq_none]

theorem JsonFormat.exists_dumpText (F : JsonFormat) {j : Json} (h : j.Utf8) :
    ∃ b, F.dumpText j = .ok b := by
  obtain ⟨b, hb⟩ := Option.isSome_iff_exists.mp ((F.dump_isSome j).mpr h)
  exact ⟨b, by rw [dumpText, hb]⟩

/-- **`dump` throws exactly on text that is not UTF-8.** -/
theorem JsonFormat.dumpText_isOk (F : JsonFormat) {j : Json} :
    (F.dumpText j).isOk = true ↔ j.Utf8 := by
  rw [← F.dump_isSome, dumpText]
  cases F.dump j <;> simp [Except.isOk, Except.toBool]

theorem JsonFormat.parseText_dumpText (F : JsonFormat) {j : Json} {b : Bytes} (hj : j.Plain)
    (h : F.dumpText j = .ok b) : F.parseText b = .ok j := by
  unfold dumpText at h
  split at h
  · next b' hb =>
    cases h
    rw [parseText, F.parse_dump j _ hj hb]
  · cases h

/-- A reader that undoes a writer undoes it through the text. -/
theorem JsonFormat.read_text {α : Type} (F : JsonFormat) {j : Json} {read : Json → Except JsonError α}
    {a : α} (hp : j.Plain) (hu : j.Utf8) (hread : read j = .ok a) :
    (F.dumpText j >>= fun b => F.parseText b >>= read) = .ok a := by
  obtain ⟨b, hb⟩ := F.exists_dumpText hu
  rw [hb, ok_bind, F.parseText_dumpText hp hb, ok_bind, hread]

end Ocpe.Lib
