import Ocpe.Lib.Bytes

/-!
# Languages

`sandbox/src/language.cpp`.  The API, the evaluator and the compiler each
normalise the name of a language again; `normalizeLanguage_normalizeLanguage` says
that nothing changes any more after the first time.
-/

namespace Ocpe

open Lib

structure LanguageInfo where
  id : Bytes
  name : Bytes
  extension : Bytes

def supportedLanguages : List LanguageInfo :=
  [⟨"c", "C", ".c"⟩, ⟨"cpp", "C++", ".cpp"⟩, ⟨"python", "Python 3", ".py"⟩]

/-- `std::tolower` in the C locale. -/
def tolower (c : UInt8) : UInt8 := if 65 ≤ c ∧ c ≤ 90 then c + 32 else c

def normalizeLanguage (language : Bytes) : Bytes :=
  let lang := language.map tolower
  if lang = "c++" ∨ lang = "cxx" then "cpp"
  else if lang = "py" ∨ lang = "python3" then "python"
  else lang

def isSupportedLanguage (language : Bytes) : Bool :=
  supportedLanguages.any fun l => l.id = normalizeLanguage language

def sourceExtension (language : Bytes) : Bytes :=
  match supportedLanguages.find? fun l => l.id = normalizeLanguage language with
  | some l => l.extension
  | none => ".c"

theorem isSupportedLanguage_iff {language : Bytes} :
    isSupportedLanguage language = true ↔
      normalizeLanguage language = "c" ∨ normalizeLanguage language = "cpp" ∨
        normalizeLanguage language = "python" := by
  simp only [isSupportedLanguage, supportedLanguages, List.any_cons, List.any_nil, Bool.or_false,
    Bool.or_eq_true, decide_eq_true_eq, eq_comm (b := normalizeLanguage language)]

theorem tolower_tolower (c : UInt8) : tolower (tolower c) = tolower c := by
  unfold tolower
  split
  · next hupper =>
    rw [if_neg]
    intro hlower
    simp only [UInt8.le_iff_toNat_le, UInt8.toNat_add] at hupper hlower
    simp at hupper hlower
    omega
  · rfl

/-- **Normalising again changes nothing.** -/
theorem normalizeLanguage_normalizeLanguage (language : Bytes) :
    normalizeLanguage (normalizeLanguage language) = normalizeLanguage language := by
  have hmap : ∀ l : Bytes, (l.map tolower).map tolower = l.map tolower := by
    intro l
    rw [List.map_map]
    exact List.map_congr_left fun c _ => tolower_tolower c
  unfold normalizeLanguage
  dsimp only
  by_cases hcpp : language.map tolower = "c++" ∨ language.map tolower = "cxx"
  · simp only [hcpp, if_true]
    decide
  · by_cases hpython : language.map tolower = "py" ∨ language.map tolower = "python3"
    · simp only [hcpp, hpython, if_true, if_false]
      decide
    · simp only [hcpp, hpython, if_false, hmap]

@[simp] theorem isSupportedLanguage_normalizeLanguage (language : Bytes) :
    isSupportedLanguage (normalizeLanguage language) = isSupportedLanguage language := by
  rw [isSupportedLanguage, normalizeLanguage_normalizeLanguage]
  rfl

end Ocpe
