import Mathlib.Order.Bounds.Basic
import Ocpe.Lib.CInt
import Ocpe.Lib.JsonText
import Ocpe.Sandbox.Monitor
import Ocpe.Shared.JsonUtils

/-!
# What becomes of the two limits

`time_limit_ms` and `memory_limit_mb` are `int`s that come out of a `meta.json` without a
check of their range, and `Sandbox::run` turns them into four limits: the child's
`RLIMIT_AS` and `RLIMIT_CPU`, the deadline of the monitoring loop, and the threshold that the
verdict compares the peak memory with.  Three of the four are computed in `int`, and the
memory limit is widened before its product for one use and after it for the other.

* `memLimit_iff`, `thresholdKb_iff`, `cpuLimit_iff`, `deadline_iff`: from which values on each
  of them means what it says.
* `limits_iff`: when all four do.
* `Denotes.used`: the monitoring loop and the verdict use the same limits then.
-/

namespace Ocpe.Sandbox

open Lib

/-! ### The four limits -/

section

variable (limits : SandboxLimits)

/-- `mem_limit`, both its fields; the `int` is converted before the products. -/
def memLimit : UInt64 := limits.memoryLimitMb.toInt64.toUInt64 * 1024 * 1024

/-- `limits_.memory_limit_mb * 1024`, in both comparisons with `memory_kb` -/
def thresholdKb : Option Int32 := mulInt? limits.memoryLimitMb 1024

def cpuSec : Option Int32 := do
  let sum ← addInt? limits.timeLimitMs 999
  let cpuSec := sum / 1000
  return if cpuSec < 1 then 1 else cpuSec

/-- `cpu_limit`, that is `rlim_cur` and `rlim_max` -/
def cpuLimit : Option (UInt64 × UInt64) := do
  let cpuSec ← cpuSec limits
  let hard ← addInt? cpuSec 1
  return (cpuSec.toInt64.toUInt64, hard.toInt64.toUInt64)

/-- `deadline`, for a clock that stands at `now`.  The clock counts nanoseconds in a 64-bit
integer, so the milliseconds are converted before they are added. -/
def deadline (now : Int64) : Option Int64 := do
  let ms ← addInt? limits.timeLimitMs 500
  let ns ← mulLong? ms.toInt64 1000000
  addLong? now ns

end

variable {limits : SandboxLimits} {now : Int64}

/-! ### When each of them has its value -/

theorem memLimit_iff :
    ((memLimit limits).toNat : Int) = limits.memoryLimitMb.toInt * 2 ^ 20 ↔
      0 ≤ limits.memoryLimitMb.toInt := by
  constructor
  · omega
  · intro h
    have hrange := int_range limits.memoryLimitMb
    have hwide := toNat_toUInt64 h
    have hk : (1024 : UInt64).toNat = 1024 := rfl
    rw [memLimit, UInt64.toNat_mul, UInt64.toNat_mul, hk]
    omega

theorem thresholdKb_iff :
    (∃ kb, thresholdKb limits = some kb ∧ kb.toInt = limits.memoryLimitMb.toInt * 1024) ↔
      -2097152 ≤ limits.memoryLimitMb.toInt ∧ limits.memoryLimitMb.toInt ≤ 2097151 := by
  have hk : (1024 : Int32).toInt = 1024 := by decide
  have hfits : (∃ kb, thresholdKb limits = some kb) ↔ _ := exists_int?
  rw [hk] at hfits
  constructor
  · rintro ⟨kb, hkb, -⟩
    have hrange := hfits.mp ⟨kb, hkb⟩
    omega
  · intro h
    obtain ⟨kb, hkb⟩ := hfits.mpr (by omega)
    refine ⟨kb, hkb, ?_⟩
    rw [← hk]
    exact mulInt?_eq_some.mp hkb

/-- The quotient of the source is the number of seconds rounded up, and at least 1. -/
theorem cpuSec_isLeast {s : Int32} (h : cpuSec limits = some s) :
    IsLeast {s : Int | 1 ≤ s ∧ limits.timeLimitMs.toInt ≤ 1000 * s} s.toInt := by
  obtain ⟨sum, hsum, hs⟩ := Option.bind_eq_some_iff.mp h
  have hk : (999 : Int32).toInt = 999 := by decide
  rw [addInt?_eq_some, hk] at hsum
  -- the division of a negative sum rounds up
  have hdiv : (sum / 1000).toInt =
      sum.toInt / 1000 + if 0 ≤ sum.toInt ∨ 1000 ∣ sum.toInt then 0 else 1 := by
    rw [Int32.toInt_div_of_ne_right sum 1000 (by decide)]
    exact Int.tdiv_eq_ediv
  have hlt : sum / 1000 < 1 ↔ (sum / 1000).toInt < 1 := Int32.lt_iff_toInt_lt
  obtain rfl : (if sum / 1000 < 1 then 1 else sum / 1000) = s := Option.some.inj hs
  split
  · next hsmall =>
    rw [hlt, hdiv] at hsmall
    have hone : (1 : Int32).toInt = 1 := by decide
    rw [hone]
    refine ⟨⟨le_refl 1, ?_⟩, fun s hs => hs.1⟩
    omega
  · next hlarge =>
    rw [hlt, hdiv] at hlarge
    rw [hdiv]
    refine ⟨⟨by omega, by omega⟩, fun s hs => ?_⟩
    have hle := hs.2
    omega

theorem cpuLimit_iff :
    (∃ soft hard, cpuLimit limits = some (soft, hard) ∧
      IsLeast {s : Int | 1 ≤ s ∧ limits.timeLimitMs.toInt ≤ 1000 * s} soft.toNat ∧
      hard.toNat = soft.toNat + 1) ↔
    limits.timeLimitMs.toInt ≤ 2147482648 := by
  have hk : (999 : Int32).toInt = 999 := by decide
  have hfits : (∃ sum, addInt? limits.timeLimitMs 999 = some sum) ↔ _ := exists_int?
  rw [hk] at hfits
  constructor
  · rintro ⟨soft, hard, h, -⟩
    obtain ⟨s, hs, -⟩ := Option.bind_eq_some_iff.mp h
    obtain ⟨sum, hsum, -⟩ := Option.bind_eq_some_iff.mp hs
    have hrange := hfits.mp ⟨sum, hsum⟩
    omega
  · intro h
    have hrange := int_range limits.timeLimitMs
    obtain ⟨sum, hsum⟩ := hfits.mpr (by omega)
    obtain ⟨s, hs⟩ : ∃ s, cpuSec limits = some s := by
      rw [cpuSec, hsum]
      exact ⟨_, rfl⟩
    have hleast := cpuSec_isLeast hs
    have hone : (1 : Int32).toInt = 1 := by decide
    -- the least number of seconds is small, so the hard limit is an `int` too
    have hsmall : s.toInt ≤ 2147483 := hleast.2 ⟨by norm_num, by omega⟩
    have hpos : 1 ≤ s.toInt := hleast.1.1
    obtain ⟨hard, hhard⟩ : ∃ hard, addInt? s 1 = some hard := exists_int?.mpr (by omega)
    have hhardInt := addInt?_eq_some.mp hhard
    have hsoftNat : (s.toInt64.toUInt64.toNat : Int) = s.toInt := toNat_toUInt64 (by omega)
    have hhardNat : (hard.toInt64.toUInt64.toNat : Int) = hard.toInt := toNat_toUInt64 (by omega)
    refine ⟨s.toInt64.toUInt64, hard.toInt64.toUInt64, ?_, ?_, ?_⟩
    · rw [cpuLimit, hs, Option.bind_eq_bind, Option.bind_some, hhard]
      rfl
    · rw [hsoftNat]
      exact hleast
    · omega

theorem deadline_iff :
    (∃ d, deadline limits now = some d ∧
      d.toInt = now.toInt + (limits.timeLimitMs.toInt + 500) * 1000000) ↔
    limits.timeLimitMs.toInt ≤ 2147483147 ∧
      now.toInt + (limits.timeLimitMs.toInt + 500) * 1000000 ≤ 9223372036854775807 ∧
      -9223372036854775808 ≤ now.toInt + (limits.timeLimitMs.toInt + 500) * 1000000 := by
  have hk : (500 : Int32).toInt = 500 := by decide
  have hm : (1000000 : Int64).toInt = 1000000 := by decide
  have hfits : (∃ ms, addInt? limits.timeLimitMs 500 = some ms) ↔ _ := exists_int?
  rw [hk] at hfits
  constructor
  · rintro ⟨d, h, hd⟩
    obtain ⟨ms, hms, -⟩ := Option.bind_eq_some_iff.mp h
    have hrange := hfits.mp ⟨ms, hms⟩
    have hlong := long_range d
    omega
  · rintro ⟨h, hle, hge⟩
    have hrange := int_range limits.timeLimitMs
    obtain ⟨ms, hms⟩ := hfits.mpr (by omega)
    have hmsInt := addInt?_eq_some.mp hms
    have hwide : ms.toInt64.toInt * (1000000 : Int64).toInt = ms.toInt * 1000000 := by
      rw [ms.toInt_toInt64, hm]
    -- 2 ^ 31 milliseconds are far fewer than 2 ^ 63 nanoseconds
    obtain ⟨ns, hns⟩ : ∃ ns, mulLong? ms.toInt64 1000000 = some ns := exists_long?.mpr (by omega)
    have hnsInt := mulLong?_eq_some.mp hns
    obtain ⟨d, hd⟩ : ∃ d, addLong? now ns = some d := exists_long?.mpr (by omega)
    refine ⟨d, ?_, ?_⟩
    · rw [deadline, hms, Option.bind_eq_bind, Option.bind_some, hns]
      exact hd
    · rw [addLong?_eq_some.mp hd]
      omega

/-- Every limit has a value, and the value is the limit of the `meta.json`. -/
structure Denotes (limits : SandboxLimits) (now : Int64) : Prop where
  memory : ((memLimit limits).toNat : Int) = limits.memoryLimitMb.toInt * 2 ^ 20
  threshold : ∃ kb, thresholdKb limits = some kb ∧ kb.toInt = limits.memoryLimitMb.toInt * 1024
  cpu : ∃ soft hard, cpuLimit limits = some (soft, hard) ∧
    IsLeast {s : Int | 1 ≤ s ∧ limits.timeLimitMs.toInt ≤ 1000 * s} soft.toNat ∧
    hard.toNat = soft.toNat + 1
  clock : ∃ d, deadline limits now = some d ∧
    d.toInt = now.toInt + (limits.timeLimitMs.toInt + 500) * 1000000

/-- **The monitoring loop and the verdict use the same limits**: the deadline is that far from
the start, and the verdict allows as much memory as the child may map. -/
theorem Denotes.used (h : Denotes limits now) :
    (∀ s t : Monitor, s.pc = .startClock → returns limits s (.time now.toInt) = some t →
      t.deadline = now.toInt + (limits.timeLimitMs.toInt + 500) * 1000000) ∧
    ((memLimit limits).toNat : Int) = memoryLimitKb limits * 1024 := by
  constructor
  · intro s t hpc ht
    obtain ⟨d, hd, hclock⟩ := h.clock
    obtain ⟨ms, hms, hd⟩ := Option.bind_eq_some_iff.mp hd
    obtain ⟨ns, hns, hd⟩ := Option.bind_eq_some_iff.mp hd
    have hk : (500 : Int32).toInt = 500 := by decide
    have hm : (1000000 : Int64).toInt = 1000000 := by decide
    rw [addInt?_eq_some, hk] at hms
    rw [mulLong?_eq_some, ms.toInt_toInt64, hm, hms] at hns
    rw [addLong?_eq_some, hns] at hd
    simp only [returns, hpc, Option.some.injEq] at ht
    rw [← ht, ← hclock, hd]
  · obtain ⟨kb, hkb, heq⟩ := h.threshold
    have hk : (1024 : Int32).toInt = 1024 := by decide
    rw [memoryLimitKb, ← hk, ← mulInt?_eq_some.mp hkb, heq, h.memory, hk]
    ring

/-- The limits of `run_all_test_cases` for a problem. -/
def limitsOf (problem : ProblemInfo) : SandboxLimits :=
  { timeLimitMs := problem.timeLimitMs, memoryLimitMb := problem.memoryLimitMb }

/-- **When a limit means the same everywhere.**  Every two `int`s can stand in a `meta.json`.
Their limits are the ones they denote exactly when the memory limit is not negative and its
kilobytes are an `int`, adding 999 to the time limit stays within an `int`, and the clock does
not run out. -/
theorem limits_iff (F : JsonFormat) :
    (∀ t m : Int32, ∃ text problem, problemInfoFromJson F text = .ok problem ∧
      problem.timeLimitMs = t ∧ problem.memoryLimitMb = m) ∧
    ∀ (problem : ProblemInfo) (now : Int64), Denotes (limitsOf problem) now ↔
      0 ≤ problem.memoryLimitMb.toInt ∧ problem.memoryLimitMb.toInt ≤ 2097151 ∧
      problem.timeLimitMs.toInt ≤ 2147482648 ∧
      now.toInt + (problem.timeLimitMs.toInt + 500) * 1000000 ≤ 9223372036854775807 ∧
      -9223372036854775808 ≤ now.toInt + (problem.timeLimitMs.toInt + 500) * 1000000 := by
  refine ⟨fun t m => ?_, fun problem now => ⟨fun h => ?_, fun h => ?_⟩⟩
  · let problem : ProblemInfo := { timeLimitMs := t, memoryLimitMb := m }
    have hempty : ValidUtf8 [] := by decide
    have hutf8 : problem.Utf8 := ⟨hempty, hempty, hempty⟩
    obtain ⟨text, htext⟩ := F.exists_dumpText ((utf8_problemInfoJson problem).mpr hutf8)
    refine ⟨text, problem, ?_, rfl, rfl⟩
    have hread := (decode_encode F).2.2 problem hutf8
    rw [problemInfoToJson, htext] at hread
    exact hread
  · have hmem := memLimit_iff.mp h.memory
    have hkb := thresholdKb_iff.mp h.threshold
    have hcpu := cpuLimit_iff.mp h.cpu
    have hclock := deadline_iff.mp h.clock
    exact ⟨hmem, hkb.2, hcpu, hclock.2⟩
  · obtain ⟨hpos, hkb, hcpu, hle, hge⟩ := h
    refine ⟨memLimit_iff.mpr hpos, thresholdKb_iff.mpr ⟨?_, hkb⟩, cpuLimit_iff.mpr hcpu,
      deadline_iff.mpr ⟨?_, hle, hge⟩⟩
    · exact le_trans (by norm_num) hpos
    · exact le_trans hcpu (by norm_num)

/-- The text is accepted, the child's limit is 2 TiB, and the product for the verdict has no
value. -/
theorem threshold_overflows :
    problemInfoFromJson jsonText "\x7b\"memory_limit_mb\":2097152\x7d" =
        .ok { memoryLimitMb := 2097152 } ∧
      (memLimit { memoryLimitMb := 2097152 }).toNat = 2 ^ 41 ∧
      thresholdKb { memoryLimitMb := 2097152 } = none ∧
      ∀ now, ¬ Denotes (limitsOf { memoryLimitMb := 2097152 }) now := by
  refine ⟨by decide +kernel, by decide, by decide, fun now h => ?_⟩
  obtain ⟨kb, hkb, -⟩ := h.threshold
  have hnone : thresholdKb (limitsOf { memoryLimitMb := 2097152 }) = none := by decide
  rw [hnone] at hkb
  exact absurd hkb (Option.some_ne_none kb).symm

end Ocpe.Sandbox
