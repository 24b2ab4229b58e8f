import SqliteRemote.Login
import SqliteRemote.ServerConfig

/-! The limits a server enforces and those it tells its clients at login. The check of the
configuration multiplies durations in int64 and the answer to a login holds milliseconds in 32 bits,
so the two agree only for durations within bounds that nothing checks. -/
namespace SqliteRemote.Server
open StoreContract Protocol

-- Run leaves the time to live of a challenge unset.
def Config.loginOptions (c : Config) (platform : Platform) (logins : LoginFormats) (crypto : Crypto) : LoginOptions :=
  ⟨c.options platform,c.pingInterval,c.helloTimeout,0,c.serverID,c.tokens,logins,crypto⟩

structure Advertised (c : Config) (answer : HelloOk) : Prop where
  twice : 2*c.pingInterval ≤ c.leaseTTL
  timeout : IsInt64 (3*c.pingInterval)
  lease : (answer.leaseTtlMs.toNat : Int) = c.leaseTTL/1000000
  ping : (answer.pingIntervalMs.toNat : Int) = c.pingInterval/1000000
  positive : 0 < answer.pingIntervalMs

theorem narrowed (n : Int) : ((UInt32.ofInt n).toNat : Int) = n%2^32 := by
  have rest : 0 ≤ n%2^32 := Int.emod_nonneg _ (by decide)
  have below : n%2^32 < 2^32 := Int.emod_lt_of_pos _ (by decide)
  have fits : (n%2^32).toNat < 2^32 := by omega
  have bits : (UInt32.ofInt n).toNat = (n%2^32).toNat := UInt32.toNat_ofNat_of_lt' fits
  rw [bits,Int.toNat_of_nonneg rest]

theorem millisecondsKept {d : Int} (positive : 0 ≤ d) :
    ((UInt32.ofInt (milliseconds d)).toNat : Int) = d/1000000 ↔ d < 2^32*1000000 := by
  rw [narrowed,milliseconds,Int.tdiv_eq_ediv_of_nonneg positive]
  omega

theorem millisecondsPositive {d : Int} (kept : ((UInt32.ofInt (milliseconds d)).toNat : Int) = d/1000000) :
    0 < UInt32.ofInt (milliseconds d) ↔ 1000000 ≤ d := by
  rw [UInt32.lt_iff_toNat_lt,UInt32.toNat_zero]
  omega

theorem durationsKept {ping ttl : Int} (positive : 0 < ping) (paced : 2*ping < 2^63 → 2*ping ≤ ttl) :
    (2*ping ≤ ttl ∧ IsInt64 (3*ping) ∧ ((UInt32.ofInt (milliseconds ttl)).toNat : Int) = ttl/1000000 ∧
      ((UInt32.ofInt (milliseconds ping)).toNat : Int) = ping/1000000 ∧ 0 < UInt32.ofInt (milliseconds ping)) ↔
      1000000 ≤ ping ∧ 3*ping < 2^63 ∧ ttl < 2^32*1000000 := by
  constructor
  · rintro ⟨twice,timeout,lease,kept,some⟩
    exact ⟨(millisecondsPositive kept).mp some,timeout.2,(millisecondsKept (by omega)).mp lease⟩
  · rintro ⟨whole,timeout,short⟩
    have twice := paced (by omega)
    have kept := (millisecondsKept (d := ping) (by omega)).mpr (by omega)
    exact ⟨twice,⟨by omega,timeout⟩,(millisecondsKept (by omega)).mpr short,kept,(millisecondsPositive kept).mpr whole⟩

theorem limitsAdvertised {c : Config} {lib : Library} (platform : Platform) (logins : LoginFormats) (crypto : Crypto)
    (tokenTtl : UInt64) (accepted : c.validate lib = none) :
    Advertised c ((c.loginOptions platform logins crypto).helloOk tokenTtl) ↔
      1000000 ≤ c.pingInterval ∧ 3*c.pingInterval < 2^63 ∧ c.leaseTTL < 2^32*1000000 := by
  have durations := durationsKept (validPositive accepted) (fun unwrapped => (validPaced accepted unwrapped).twice)
  refine Iff.trans ⟨fun told => ?_,fun told => ?_⟩ durations
  · exact ⟨told.twice,told.timeout,told.lease,told.ping,told.positive⟩
  · obtain ⟨twice,timeout,lease,kept,some⟩ := told
    exact ⟨twice,timeout,lease,kept,some⟩

def servedWith (ping ttl : Duration) : Config :=
  {defaultConfig with
    addr := ":8080", serverID := "wss://vfs.example/v1/ws", store := storeMemory, pingInterval := ping, leaseTTL := ttl}

def bareLibrary : Library := ⟨id,fun _ => "",fun _ => none⟩

def bareLogin (c : Config) : LoginOptions :=
  c.loginOptions ⟨id,fun _ => "",2^48/24⟩ ⟨fun _ => "","",fun _ => "",fun _ => ""⟩ ⟨fun _ _ _ => false,fun _ => ""⟩

theorem defaultLimitsAdvertised : (servedWith (10*second) (5*minute)).validate bareLibrary = none ∧
    Advertised (servedWith (10*second) (5*minute)) ((bareLogin (servedWith (10*second) (5*minute))).helloOk 0) := by
  have accepted : (servedWith (10*second) (5*minute)).validate bareLibrary = none := by decide +kernel
  exact ⟨accepted,(limitsAdvertised _ _ _ 0 accepted).mpr (by decide +kernel)⟩

theorem limitsMisadvertised :
    (servedWith 500000 (5*minute)).validate bareLibrary = none ∧
    ((bareLogin (servedWith 500000 (5*minute))).helloOk 0).pingIntervalMs = 0 ∧
    (servedWith (10*second) (2^32*1000000)).validate bareLibrary = none ∧
    ((bareLogin (servedWith (10*second) (2^32*1000000))).helloOk 0).leaseTtlMs = 0 ∧
    (servedWith (2^62) 1).validate bareLibrary = none ∧ ¬ (2*2^62 ≤ (servedWith (2^62) 1).leaseTTL) ∧
    ¬ IsInt64 (3*(servedWith (2^62) 1).pingInterval) := by
  decide +kernel

end SqliteRemote.Server
