/-
# The daemon's configuration

`ukield/src/config.rs`: the sections `validate` looks at, and `validate`.  Numbers come from TOML,
whose integers are `i64`s.  A float is its bit pattern; the two comparisons of floats, and the
conversion of an integer they need, are those of IEEE 754.
-/
import Ukiel.Core.Sorting

namespace Ukiel.Daemon

/-! ## 1. Floats -/

/-- NaN has no order. -/
def isNan (bits : UInt64) : Bool := decide (0x7ff0000000000000 < bits.toNat % 2 ^ 63)

/-- `a <= b`.  The two zeros are equal. -/
def f64Le (a b : UInt64) : Bool :=
  !isNan a && !isNan b &&
    (decide (a.toNat % 2 ^ 63 = 0 ∧ b.toNat % 2 ^ 63 = 0) || decide (floatCode a ≤ floatCode b))

/-- `n as f64` of a `u64`: to the nearest, and to the even one in the middle. -/
def f64OfNat (n : Nat) : UInt64 :=
  if n = 0 then 0
  else
    let e := n.log2
    let mantissa :=
      if e ≤ 52 then n * 2 ^ (52 - e)
      else
        let unit := 2 ^ (e - 52)
        let q := n / unit
        if unit < 2 * (n % unit) ∨ (2 * (n % unit) = unit ∧ q % 2 = 1) then q + 1 else q
    UInt64.ofNat ((e + 1023) * 2 ^ 52 + mantissa - 2 ^ 52)

example : f64OfNat 300 = 0x4072c00000000000 ∧ f64OfNat (2 ^ 64 - 1) = 0x43f0000000000000 := by
  decide

/-! ## 2. Sections -/

inductive Role where
  | ingest
  | mv
  | query
  | compactor
  | gc
deriving DecidableEq

structure CatalogConfig where
  url : String
  maxConnections : Nat
  minConnections : Nat
  acquireTimeoutMs : Nat
  lockTimeoutMs : Nat
  retryBaseMs : Nat
  retryMaxMs : Nat
  retryJitterRatio : UInt64
  recoveryProbeTimeoutMs : Nat
  queryAdmissionTimeoutMs : Nat

structure QueryConfig where
  cacheDir : String
  cacheChunkSize : Nat
  cacheMaxBytes : Nat
  cacheMaxEntries : Nat
  cacheSizeEntries : Nat
  statementTimeoutSecs : Nat

structure MvSection where
  pipelines : List String
  pollIntervalMs : Nat
  inputBytes : Nat
  outputBytes : Nat
  outputRows : Nat
  operatorMemoryBytes : Nat

structure CompactorSection where
  /-- L0 merge trigger. -/
  l0Fanout : Nat
  /-- Run-count merge trigger for L1 and above. -/
  fanout : Nat
  leaseTtlSecs : Nat
  leaseRenewIntervalSecs : Nat
  candidateLimit : Int

structure GcSection where
  tombstoneGraceSecs : UInt64

structure UkieldConfig where
  roles : List Role
  catalog : CatalogConfig
  query : QueryConfig
  mv : MvSection
  compactor : CompactorSection
  gc : GcSection

/-! ## 3. Validation -/

inductive ConfigError where
  | cacheCapacities
  | mvPipelines
  | mvLimits
  /-- A query outliving the grace can read reaped objects. -/
  | statementTimeout (timeoutSecs : Nat) (graceSecs : UInt64)
  | leaseIntervals (ttl renew : Nat)
  | leaseRenewInterval (renew third : Nat)
  | candidateLimit (limit : Int)
  | catalogUrl
  | maxConnections
  | minConnections (min max : Nat)
  | notPositive (name : String)
  | lockTimeout
  | retryBase (base max : Nat)
  | retryJitterRatio (ratio : UInt64)
deriving DecidableEq

/-- `validate_catalog`. -/
def validateCatalog (cat : CatalogConfig) : Except ConfigError Unit := do
  if cat.url = "" then throw .catalogUrl
  if cat.maxConnections = 0 then throw .maxConnections
  if cat.maxConnections < cat.minConnections then
    throw (.minConnections cat.minConnections cat.maxConnections)
  for (name, value) in
      [("acquire_timeout_ms", cat.acquireTimeoutMs), ("lock_timeout_ms", cat.lockTimeoutMs),
        ("retry_base_ms", cat.retryBaseMs), ("retry_max_ms", cat.retryMaxMs),
        ("recovery_probe_timeout_ms", cat.recoveryProbeTimeoutMs),
        ("query_admission_timeout_ms", cat.queryAdmissionTimeoutMs)] do
    if value = 0 then throw (.notPositive name)
  if 2 ^ 31 - 1 < cat.lockTimeoutMs then throw .lockTimeout
  if cat.retryMaxMs < cat.retryBaseMs then throw (.retryBase cat.retryBaseMs cat.retryMaxMs)
  if ¬ (f64Le 0 cat.retryJitterRatio ∧ f64Le cat.retryJitterRatio 0x3ff0000000000000) then
    throw (.retryJitterRatio cat.retryJitterRatio)

/-- `validate`. -/
def validate (cfg : UkieldConfig) : Except ConfigError Unit := do
  if cfg.query.cacheDir ≠ "" ∧ (cfg.query.cacheMaxBytes = 0 ∨ cfg.query.cacheMaxEntries = 0 ∨
      cfg.query.cacheSizeEntries = 0 ∨ cfg.query.cacheChunkSize = 0) then
    throw .cacheCapacities
  if .mv ∈ cfg.roles ∧ cfg.mv.pipelines = [] then throw .mvPipelines
  if cfg.mv.pollIntervalMs = 0 ∨ 0 ∈ [cfg.mv.inputBytes, cfg.mv.outputBytes, cfg.mv.outputRows,
      cfg.mv.operatorMemoryBytes] then
    throw .mvLimits
  if .query ∈ cfg.roles ∧ .gc ∈ cfg.roles ∧
      f64Le cfg.gc.tombstoneGraceSecs (f64OfNat cfg.query.statementTimeoutSecs) then
    throw (.statementTimeout cfg.query.statementTimeoutSecs cfg.gc.tombstoneGraceSecs)
  let ttl := cfg.compactor.leaseTtlSecs
  let renew := cfg.compactor.leaseRenewIntervalSecs
  if ttl = 0 ∨ renew = 0 then throw (.leaseIntervals ttl renew)
  if ttl < renew * 3 % 2 ^ 64 then throw (.leaseRenewInterval renew (ttl / 3))
  if cfg.compactor.candidateLimit ≤ 0 then throw (.candidateLimit cfg.compactor.candidateLimit)
  validateCatalog cfg.catalog

/-- What the checks say about compaction. -/
theorem candidateLimit_pos {cfg : UkieldConfig} (h : validate cfg = .ok ()) :
    0 < cfg.compactor.candidateLimit := by
  by_contra hle
  unfold validate at h
  simp only [bind, Except.bind, throw, throwThe, MonadExceptOf.throw] at h
  repeat' split at h
  all_goals first | cases h | skip
  all_goals omega

end Ukiel.Daemon
