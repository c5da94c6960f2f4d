import Ocpe.Lib.Bytes

/-!
# The Redis commands in use

The data and the seven commands of Redis that the program sends, as the server
executes them.  A key may carry the time at which it expires; an expired key is
treated as absent by every command, and the entry itself stays until a command
writes the key.  Times are in milliseconds.

A command touches one key at most, `Cmd.writes`; `exec_frame` is the frame lemma.
-/

namespace Ocpe.Redis

open Lib

inductive Value
  | str (b : Bytes)
  | list (l : List Bytes)
  deriving DecidableEq, Repr

structure Entry where
  value : Value
  expire : Option Nat := none
  deriving DecidableEq, Repr

abbrev Store := Bytes → Option Entry

inductive Cmd
  | get (key : Bytes)
  | set (key value : Bytes) (exSec : Option Nat)
  | lpush (key value : Bytes)
  | brpop (key : Bytes) (timeoutSec : Nat)
  | llen (key : Bytes)
  | ltrim (key : Bytes) (start stop : Int)
  | lrange (key : Bytes) (start stop : Int)
  deriving DecidableEq, Repr

inductive Reply
  | nil
  | status (b : Bytes)
  | error (msg : Bytes)
  | str (b : Bytes)
  | int (n : Int)
  | arr (l : List Bytes)
  deriving DecidableEq, Repr

def Entry.Live (now : Nat) (e : Entry) : Prop := ∀ t ∈ e.expire, now ≤ t

instance (now : Nat) (e : Entry) : Decidable (e.Live now) :=
  decidable_of_iff (e.expire.all (now ≤ ·)) (by unfold Entry.Live; cases e.expire <;> simp)

def Store.live (s : Store) (now : Nat) (key : Bytes) : Option Value :=
  (s key).bind fun e => if e.Live now then some e.value else none

def Store.put (s : Store) (key : Bytes) (e : Option Entry) : Store :=
  fun k => if k = key then e else s k

@[simp] theorem Store.put_self (s : Store) (key : Bytes) (e : Option Entry) :
    s.put key e key = e := if_pos rfl

@[simp] theorem Store.put_of_ne (s : Store) {key k : Bytes} (e : Option Entry) (h : k ≠ key) :
    s.put key e k = s k := if_neg h

theorem Store.live_put_self (s : Store) (now : Nat) (key value : Bytes) {expire : Option Nat}
    (h : Entry.Live now ⟨.str value, expire⟩) :
    (s.put key (some ⟨.str value, expire⟩)).live now key = some (.str value) := by
  simp [Store.live, h]

theorem Store.live_forever {s : Store} {now : Nat} {key : Bytes} {v : Value}
    (h : s key = some ⟨v, none⟩) : s.live now key = some v := by
  simp [Store.live, h, Entry.Live]

theorem Store.live_until {s : Store} {now t : Nat} {key : Bytes} {v : Value}
    (h : s key = some ⟨v, some t⟩) : s.live now key = if now ≤ t then some v else none := by
  simp [Store.live, h, Entry.Live]

def wrongType : Reply := .error "WRONGTYPE Operation against a key holding the wrong kind of value"

/-- A list key without elements does not exist. -/
def listEntry (l : List Bytes) : Option Entry := if l = [] then none else some ⟨.list l, none⟩

/-- The elements from `start` to `stop`, where a negative index counts from the end. -/
def range (l : List Bytes) (start stop : Int) : List Bytes :=
  let index (i : Int) : Int := if i < 0 then i + l.length else i
  (l.take (index stop + 1).toNat).drop (index start).toNat

def exec (now : Nat) (s : Store) : Cmd → Store × Reply
  | .get key =>
    match s.live now key with
    | none => (s, .nil)
    | some (.str b) => (s, .str b)
    | some (.list _) => (s, wrongType)
  | .set key value exSec =>
    (s.put key (some ⟨.str value, exSec.map fun sec => now + sec * 1000⟩), .status "OK")
  | .lpush key value =>
    match s.live now key with
    | none => (s.put key (listEntry [value]), .int 1)
    | some (.list l) => (s.put key (listEntry (value :: l)), .int (l.length + 1))
    | some (.str _) => (s, wrongType)
  | .brpop key _ =>
    match s.live now key with
    | none => (s, .nil)
    | some (.list l) =>
      match l.getLast? with
      | none => (s, .nil)
      | some value => (s.put key (listEntry l.dropLast), .arr [key, value])
    | some (.str _) => (s, wrongType)
  | .llen key =>
    match s.live now key with
    | none => (s, .int 0)
    | some (.list l) => (s, .int l.length)
    | some (.str _) => (s, wrongType)
  | .ltrim key start stop =>
    match s.live now key with
    | none => (s, .status "OK")
    | some (.list l) => (s.put key (listEntry (range l start stop)), .status "OK")
    | some (.str _) => (s, wrongType)
  | .lrange key start stop =>
    match s.live now key with
    | none => (s, .arr [])
    | some (.list l) => (s, .arr (range l start stop))
    | some (.str _) => (s, wrongType)

@[simp] theorem exec_get_store (now : Nat) (s : Store) (key : Bytes) :
    (exec now s (.get key)).1 = s := by
  unfold exec
  dsimp only
  split <;> rfl

theorem exec_get_of_none {now : Nat} {s : Store} {key : Bytes} (h : s.live now key = none) :
    exec now s (.get key) = (s, .nil) := by
  simp [exec, h]

theorem exec_get_of_str {now : Nat} {s : Store} {key b : Bytes} (h : s.live now key = some (.str b)) :
    exec now s (.get key) = (s, .str b) := by
  simp [exec, h]

@[simp] theorem exec_set (now : Nat) (s : Store) (key value : Bytes) (exSec : Option Nat) :
    exec now s (.set key value exSec) =
      (s.put key (some ⟨.str value, exSec.map fun sec => now + sec * 1000⟩), .status "OK") := rfl

def Cmd.key : Cmd → Bytes
  | .get key => key
  | .set key _ _ => key
  | .lpush key _ => key
  | .brpop key _ => key
  | .llen key => key
  | .ltrim key _ _ => key
  | .lrange key _ _ => key

/-- **The reply to a command** depends on its key alone. -/
theorem exec_reply_congr {now : Nat} {s s' : Store} {c : Cmd} (h : s' c.key = s c.key) :
    (exec now s' c).2 = (exec now s c).2 := by
  have hlive : s'.live now c.key = s.live now c.key := by rw [Store.live, Store.live, h]
  cases c with
  | set key value exSec => rfl
  | brpop key timeoutSec =>
    simp only [Cmd.key] at hlive
    simp only [exec, hlive]
    cases s.live now key with
    | none => rfl
    | some v =>
      cases v with
      | str b => rfl
      | list l => cases hlast : l.getLast? <;> simp only [hlast]
  | _ =>
    simp only [Cmd.key] at hlive
    simp only [exec, hlive]
    split <;> rfl

def Cmd.writes : Cmd → Option Bytes
  | .get _ => none
  | .set key _ _ => some key
  | .lpush key _ => some key
  | .brpop key _ => some key
  | .llen _ => none
  | .ltrim key _ _ => some key
  | .lrange _ _ _ => none

/-- **A command leaves every other key alone.** -/
theorem exec_frame {now : Nat} {s : Store} {c : Cmd} {k : Bytes} (h : c.writes ≠ some k) :
    (exec now s c).1 k = s k := by
  cases c <;> simp only [Cmd.writes, ne_eq, Option.some.injEq] at h <;> simp only [exec]
  case set => exact Store.put_of_ne _ _ (Ne.symm h)
  all_goals split
  all_goals first
    | rfl
    | exact Store.put_of_ne _ _ (Ne.symm h)
    | split <;> first | rfl | exact Store.put_of_ne _ _ (Ne.symm h)

end Ocpe.Redis
