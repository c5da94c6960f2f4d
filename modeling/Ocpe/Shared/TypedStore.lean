import Ocpe.Shared.Redis
import Mathlib.Tactic.Common

/-!
# Typed stores

A schema says of each key whether it holds a string, and for how long, or a list, and
which values are good under it.  A store conforms to a schema when every entry does, and
a command fits a schema when it treats its key as the schema says and writes good values
only.

`exec_sound` is type soundness: a command that fits, on a store that conforms, leaves a
store that conforms and is replied to as its type says.  `conforms_later`: time alone
breaks nothing.
-/

namespace Ocpe.Redis

open Lib

inductive Shape
  /-- a string, with a time to live -/
  | str (ttlSec : Option Nat)
  /-- a list, for ever -/
  | list
  deriving DecidableEq, Repr

structure Schema where
  shape : Bytes → Option Shape
  Good : Bytes → Bytes → Prop

namespace Schema

variable (S : Schema)

/-- The entry is one of the schema's under the key: a string that was set with the time to
live at most `now`, or a list that is not empty. -/
inductive Admits (now : Nat) (key : Bytes) : Entry → Prop
  | str (ttlSec : Option Nat) (v : Bytes) (since : Nat) (hshape : S.shape key = some (.str ttlSec))
      (hgood : S.Good key v) (hsince : since ≤ now) :
      Admits now key ⟨.str v, ttlSec.map fun sec => since + sec * 1000⟩
  | list (l : List Bytes) (hshape : S.shape key = some .list) (hne : l ≠ [])
      (hgood : ∀ v ∈ l, S.Good key v) : Admits now key ⟨.list l, none⟩

def Conforms (now : Nat) (s : Store) : Prop := ∀ key e, s key = some e → S.Admits now key e

def Fits : Cmd → Prop
  | .get key => ∃ ttlSec, S.shape key = some (.str ttlSec)
  | .set key value exSec => S.shape key = some (.str exSec) ∧ S.Good key value
  | .lpush key value => S.shape key = some .list ∧ S.Good key value
  | .brpop key _ => S.shape key = some .list
  | .llen key => S.shape key = some .list
  | .ltrim key _ _ => S.shape key = some .list
  | .lrange key _ _ => S.shape key = some .list

/-- The replies to a command that fits. -/
def Delivers : Cmd → Reply → Prop
  | .get key, r => r = .nil ∨ ∃ v, r = .str v ∧ S.Good key v
  | .set .., r => r = .status "OK"
  | .lpush .., r => ∃ n : Nat, r = .int (n + 1)
  | .brpop key _, r => r = .nil ∨ ∃ v, r = .arr [key, v] ∧ S.Good key v
  | .llen _, r => ∃ n : Nat, r = .int n
  | .ltrim .., r => r = .status "OK"
  | .lrange key _ _, r => ∃ l, r = .arr l ∧ ∀ v ∈ l, S.Good key v

variable {S} {now : Nat} {s : Store} {key : Bytes}

theorem conforms_empty : S.Conforms now fun _ => none := by
  intro key e h
  cases h

theorem Admits.later {now' : Nat} (hle : now ≤ now') {e : Entry} (h : S.Admits now key e) :
    S.Admits now' key e := by
  cases h with
  | str ttlSec v since hshape hgood hsince =>
    exact .str ttlSec v since hshape hgood (hsince.trans hle)
  | list l hshape hne hgood => exact .list l hshape hne hgood

theorem conforms_later {now' : Nat} (hle : now ≤ now') (h : S.Conforms now s) :
    S.Conforms now' s := fun key e he => (h key e he).later hle

theorem Conforms.put {e : Option Entry} (h : S.Conforms now s)
    (he : ∀ e', e = some e' → S.Admits now key e') : S.Conforms now (s.put key e) := by
  intro k e' hk
  by_cases hkey : k = key
  · subst hkey
    rw [Store.put_self] at hk
    exact he e' hk
  · rw [Store.put_of_ne _ _ hkey] at hk
    exact h k e' hk

/-- A list key stays one when its elements are good, also without elements. -/
theorem Conforms.putList {l : List Bytes} (h : S.Conforms now s)
    (hshape : S.shape key = some .list) (hgood : ∀ v ∈ l, S.Good key v) :
    S.Conforms now (s.put key (listEntry l)) := by
  refine h.put fun e he => ?_
  unfold listEntry at he
  split at he
  · cases he
  · next hne =>
    cases he
    exact .list l hshape hne hgood

theorem Delivers.ne_error {c : Cmd} {r : Reply} (h : S.Delivers c r) (msg : Bytes) :
    r ≠ .error msg := by
  rintro rfl
  cases c with
  | get key => rcases h with h | ⟨v, h, -⟩ <;> cases h
  | brpop key timeoutSec => rcases h with h | ⟨v, h, -⟩ <;> cases h
  | lpush key value => obtain ⟨n, h⟩ := h; cases h
  | llen key => obtain ⟨n, h⟩ := h; cases h
  | lrange key start stop => obtain ⟨l, h, -⟩ := h; cases h
  | set key value exSec => cases h
  | ltrim key start stop => cases h

theorem Delivers.ne_wrongType {c : Cmd} {r : Reply} (h : S.Delivers c r) : r ≠ wrongType :=
  h.ne_error _

/-! ### What is found under a key -/

theorem live_str {ttlSec : Option Nat} (h : S.Conforms now s)
    (hshape : S.shape key = some (.str ttlSec)) :
    s.live now key = none ∨ ∃ v, s.live now key = some (.str v) ∧ S.Good key v := by
  unfold Store.live
  cases he : s key with
  | none => exact .inl rfl
  | some e =>
    cases h key e he with
    | str ttlSec' v since hshape' hgood hsince =>
      simp only [Option.bind_some]
      split
      · exact .inr ⟨v, rfl, hgood⟩
      · exact .inl rfl
    | list l hshape' hne hgood =>
      rw [hshape] at hshape'
      cases hshape'

theorem live_list (h : S.Conforms now s) (hshape : S.shape key = some .list) :
    s.live now key = none ∨
      ∃ l, s.live now key = some (.list l) ∧ l ≠ [] ∧ ∀ v ∈ l, S.Good key v := by
  cases he : s key with
  | none => exact .inl (by simp [Store.live, he])
  | some e =>
    cases h key e he with
    | str ttlSec v since hshape' hgood hsince =>
      rw [hshape] at hshape'
      cases hshape'
    | list l hshape' hne hgood => exact .inr ⟨l, Store.live_forever he, hne, hgood⟩

theorem mem_range {l : List Bytes} {start stop : Int} {v : Bytes} (h : v ∈ range l start stop) :
    v ∈ l := List.mem_of_mem_take (List.mem_of_mem_drop h)

/-! ### Soundness -/

/-- **A command that fits keeps the store typed and gets a reply of its type.** -/
theorem exec_sound {c : Cmd} (h : S.Conforms now s) (hfits : S.Fits c) :
    S.Conforms now (exec now s c).1 ∧ S.Delivers c (exec now s c).2 := by
  cases c with
  | get key =>
    obtain ⟨ttlSec, hshape⟩ := hfits
    rw [exec_get_store]
    refine ⟨h, ?_⟩
    rcases live_str h hshape with hlive | ⟨v, hlive, hgood⟩
    · rw [exec_get_of_none hlive]
      exact .inl rfl
    · rw [exec_get_of_str hlive]
      exact .inr ⟨v, rfl, hgood⟩
  | set key value exSec =>
    refine ⟨h.put fun e he => ?_, rfl⟩
    cases he
    exact .str exSec value now hfits.1 hfits.2 (Nat.le_refl now)
  | lpush key value =>
    rcases live_list h hfits.1 with hlive | ⟨l, hlive, -, hgood⟩
    · simp only [exec, hlive]
      refine ⟨h.putList hfits.1 fun v hv => ?_, 0, rfl⟩
      rw [List.mem_singleton.mp hv]
      exact hfits.2
    · simp only [exec, hlive]
      refine ⟨h.putList hfits.1 fun v hv => ?_, l.length, rfl⟩
      rcases List.mem_cons.mp hv with rfl | hv
      · exact hfits.2
      · exact hgood v hv
  | brpop key timeoutSec =>
    rcases live_list h hfits with hlive | ⟨l, hlive, hne, hgood⟩
    · simp only [exec, hlive]
      exact ⟨h, .inl rfl⟩
    · have hlast : l.getLast? = some (l.getLast hne) := List.getLast?_eq_some_getLast hne
      simp only [exec, hlive, hlast]
      refine ⟨h.putList hfits fun v hv => hgood v (l.dropLast_sublist.mem hv), .inr ?_⟩
      exact ⟨_, rfl, hgood _ (List.getLast_mem hne)⟩
  | llen key =>
    rcases live_list h hfits with hlive | ⟨l, hlive, -, -⟩
    · simp only [exec, hlive]
      exact ⟨h, 0, rfl⟩
    · simp only [exec, hlive]
      exact ⟨h, l.length, rfl⟩
  | ltrim key start stop =>
    rcases live_list h hfits with hlive | ⟨l, hlive, -, hgood⟩
    · simp only [exec, hlive]
      exact ⟨h, rfl⟩
    · simp only [exec, hlive]
      exact ⟨h.putList hfits fun v hv => hgood v (mem_range hv), rfl⟩
  | lrange key start stop =>
    rcases live_list h hfits with hlive | ⟨l, hlive, -, hgood⟩
    · simp only [exec, hlive]
      exact ⟨h, [], rfl, fun v hv => absurd hv List.not_mem_nil⟩
    · simp only [exec, hlive]
      exact ⟨h, _, rfl, fun v hv => hgood v (mem_range hv)⟩

end Schema

end Ocpe.Redis
