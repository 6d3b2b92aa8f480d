import VantaCore.Extractors.Linux.Fields

/-! # Carving sockets

`LinuxNetworkExtractor.run`: every fourth offset of a chunk is tested for an `inet_sock`. It counts
its hits, not its chunks, and stops at 500 000 of them; below that it records the sockets of the
windows that end before the end of their chunk (`run_eq`). -/

namespace VantaCore.Extractors.Linux.Network

open VantaCore.Core.DumpHandle VantaCore.Lib.Chunks
open VantaCore.Extractors.Linux.Fields

def inetSockSrcIp : ℕ := 0x4B8
def inetSockDstIp : ℕ := 0x4B4
def inetSockSport : ℕ := 0x4C0
def inetSockDport : ℕ := 0x4C2

/-- `_is_valid_ipv4_bytes`. -/
def isValidIpv4Bytes (ipBytes : List UInt8) : Bool :=
  if ipBytes.length ≠ 4 then false
  else if ipBytes = [0, 0, 0, 0] ∨ ipBytes = [255, 255, 255, 255] then false
  else if ipBytes.headD 0 = 0 ∨ ipBytes.headD 0 = 255 then false
  else true

/-- `_format_ipv4`. -/
def formatIpv4 (ipBytes : List UInt8) : String :=
  ".".intercalate (ipBytes.map fun b => toString b.toNat)

/-! ### One offset -/

/-- The fields of a socket. -/
structure Socket where
  srcIp : List UInt8
  dstIp : List UInt8
  sport : ℕ
  dport : ℕ
deriving DecidableEq

/-- The tests on a chunk at an offset. -/
def carveSocket (chunk : List UInt8) (winOff : ℕ) : Option Socket :=
  let srcIpBytes := readAt chunk (winOff + inetSockSrcIp) 4
  let dstIpBytes := readAt chunk (winOff + inetSockDstIp) 4
  if isValidIpv4Bytes srcIpBytes ∧ isValidIpv4Bytes dstIpBytes then
    let sport := unpackBig 2 chunk (winOff + inetSockSport)
    let dport := unpackBig 2 chunk (winOff + inetSockDport)
    if (1 ≤ sport ∧ sport ≤ 65535) ∧ 1 ≤ dport ∧ dport ≤ 65535 then
      some ⟨srcIpBytes, dstIpBytes, sport, dport⟩
    else none
  else none

/-! ### The loop -/

/-- An entry of `connections`. -/
structure Connection where
  localAddr : String
  localPort : ℕ
  remoteAddr : String
  remotePort : ℕ
  proto : String
  state : String
  offset : ℕ
deriving DecidableEq

/-- The entry of a socket. -/
def connection (offset : ℕ) (s : Socket) : Connection :=
  ⟨formatIpv4 s.srcIp, s.sport, formatIpv4 s.dstIp, s.dport, "TCP", "ESTABLISHED", offset⟩

/-- What the loop changes. -/
structure ScanState where
  connections : List Connection
  hops : ℕ

def maxHops : ℕ := 500000

/-- The body of the loop over the offsets of a chunk. -/
def scanAt (offset : ℕ) (chunk : List UInt8) (s : ScanState) (winOff : ℕ) : ScanState :=
  if maxHops ≤ s.hops then s
  else
    match carveSocket chunk winOff with
    | none => s
    | some socket => ⟨s.connections ++ [connection (offset + winOff) socket], s.hops + 1⟩

/-- The body of the loop over the chunks. -/
def scanChunk (offset : ℕ) (chunk : List UInt8) (s : ScanState) : ScanState :=
  (steps (chunk.length - 0x4D0) 4).foldl (scanAt offset chunk) s

/-- `run`: the connections. -/
def run (dump : Dump) : List Connection :=
  (scan 65536 (fun s => maxHops ≤ s.hops) scanChunk dump ⟨[], 0⟩).connections

/-! ### What is recorded -/

section Scan

variable {dump : Dump}

/-- The tests at an offset read the window there. -/
theorem carveSocket_chunkAt {c a n : ℕ} (h : a + 0x4D0 ≤ (chunkAt n dump c).length) :
    carveSocket (chunkAt n dump c) a = carveSocket dump (c + a) := by
  have hfield : ∀ k m, k + m ≤ 0x4D0 →
      readAt (chunkAt n dump c) (a + k) m = readAt dump (c + a + k) m := fun k m hkm => by
    rw [readAt_chunkAt (by omega), Nat.add_assoc]
  unfold carveSocket unpackBig
  rw [hfield inetSockSrcIp 4 (by decide), hfield inetSockDstIp 4 (by decide),
    hfield inetSockSport 2 (by decide), hfield inetSockDport 2 (by decide)]

/-- A turn of the inner loop below the cap. -/
theorem scanAt_results (c : ℕ) (chunk : List UInt8) (s : ScanState) (a : ℕ)
    (h : s.hops + ((carveSocket chunk a).map (connection (c + a))).toList.length ≤ maxHops) :
    (scanAt c chunk s a).connections =
        s.connections ++ ((carveSocket chunk a).map (connection (c + a))).toList ∧
      (scanAt c chunk s a).hops =
        s.hops + ((carveSocket chunk a).map (connection (c + a))).toList.length := by
  unfold scanAt
  cases hsock : carveSocket chunk a with
  | none =>
    rw [ite_self]
    exact ⟨(List.append_nil _).symm, rfl⟩
  | some socket =>
    rw [hsock] at h
    have hlt : ¬ maxHops ≤ s.hops := Nat.not_le.mpr h
    rw [if_neg hlt]
    exact ⟨rfl, rfl⟩

/-- The sockets of a chunk, below the cap. -/
theorem scanChunk_results (c : ℕ) (chunk : List UInt8) (s : ScanState)
    (h : s.hops + (chunkHits 0x4D0 4 carveSocket connection c chunk).length ≤ maxHops) :
    (scanChunk c chunk s).connections =
        s.connections ++ chunkHits 0x4D0 4 carveSocket connection c chunk ∧
      (scanChunk c chunk s).hops =
        s.hops + (chunkHits 0x4D0 4 carveSocket connection c chunk).length :=
  results_foldl_capped (scanAt_results c chunk) _ s h

/-- **What the loop records**, if there are not more sockets than the cap. -/
theorem run_eq (hhits : ((windows 0x4D0 4 65536 dump).filterMap fun o =>
      (carveSocket dump o).map (connection o)).length ≤ maxHops) :
    run dump = (windows 0x4D0 4 65536 dump).filterMap fun o =>
      (carveSocket dump o).map (connection o) := by
  have hwindows : ((steps dump.length 65536).flatMap fun c =>
      chunkHits 0x4D0 4 carveSocket connection c (chunkAt 65536 dump c)) =
        (windows 0x4D0 4 65536 dump).filterMap fun o => (carveSocket dump o).map (connection o) :=
    flatMap_chunkHits (by decide) fun _ _ h => carveSocket_chunkAt h.le
  rw [← hwindows] at hhits ⊢
  unfold run
  rw [scan_eq_foldl (by decide)]
  have hstep : ∀ (s : ScanState) (c : ℕ),
      s.hops + (chunkHits 0x4D0 4 carveSocket connection c (chunkAt 65536 dump c)).length ≤ maxHops →
      (if maxHops ≤ s.hops then s else scanChunk c (chunkAt 65536 dump c) s).connections =
        s.connections ++ chunkHits 0x4D0 4 carveSocket connection c (chunkAt 65536 dump c) ∧
      (if maxHops ≤ s.hops then s else scanChunk c (chunkAt 65536 dump c) s).hops =
        s.hops + (chunkHits 0x4D0 4 carveSocket connection c (chunkAt 65536 dump c)).length := by
    intro s c hle
    by_cases hcap : maxHops ≤ s.hops
    · have hnil : chunkHits 0x4D0 4 carveSocket connection c (chunkAt 65536 dump c) = [] :=
        List.length_eq_zero_iff.mp (by omega)
      rw [if_pos hcap, hnil]
      exact ⟨(List.append_nil _).symm, rfl⟩
    · rw [if_neg hcap]
      exact scanChunk_results c _ s hle
  have hloop := (results_foldl_capped hstep (steps dump.length 65536) ⟨[], 0⟩ (by simpa using hhits)).1
  have hinit : (⟨[], 0⟩ : ScanState).connections = [] := rfl
  rw [hinit, List.nil_append] at hloop
  simp only [decide_eq_true_eq]
  exact hloop

end Scan

end VantaCore.Extractors.Linux.Network
