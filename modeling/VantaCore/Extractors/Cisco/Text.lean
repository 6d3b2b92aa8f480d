import VantaCore.Extractors.Cisco.TextScan
import VantaCore.Lib.PyText

/-! # Text in a dump

What the parsers of the Cisco extractors share: lines and fields, dotted decimal addresses, printable
tokens and the firmware version of the ASA extractors. -/

namespace VantaCore.Extractors.Cisco.Text

open VantaCore.Core.DumpHandle VantaCore.Lib.Chunks VantaCore.Lib.Search VantaCore.Lib.PyText

/-- The text is four numbers of one octet each with dots between them. -/
def fourOctets (s : PyStr) : Bool :=
  let parts := splitChar '.' s
  parts.length = 4 && parts.all fun p =>
    match int p with
    | none => false
    | some o => 0 ≤ o && o ≤ 255

/-- `text.split("\x00")[0].split("\n")[0].strip()` -/
def lineOf (snippet : List UInt8) : PyStr :=
  strip (before '\n' (before '\x00' (ofBytes snippet)))

/-- `_extract_token`: the printable ASCII text at an offset, of at most 64 characters. -/
def extractToken (chunk : List UInt8) (offset : ℕ) : Option PyStr :=
  let token := strip (ofBytes ((chunkAt 64 chunk offset).takeWhile fun b => 32 < b && b ≤ 126))
  if token = [] then none else some token

/-- `raw.decode("ascii", errors="ignore")` -/
def decodeAscii (raw : List UInt8) : PyStr := ofBytes (raw.filter (· < 128))

def versionPrefix : List UInt8 := ascii "Cisco Adaptive Security Appliance Software Version "

theorem ipRoute_ne_nil : ascii "ip route " ≠ [] := by decide

/-- `_extract_firmware_version` of `conn_table` and `acl_rules`. -/
def extractFirmwareVersion (chunk : List UInt8) : PyStr :=
  match find versionPrefix chunk 0 with
  | none => "unknown"
  | some idx =>
    let raw := (chunkAt 16 chunk (idx + versionPrefix.length)).takeWhile (· ≠ 0)
    let ver := strip (decodeAscii raw)
    if ver = [] then "unknown" else ver

/-- The chunk the firmware version is read from, of any scan. -/
def firstChunk (dump : Dump) : List UInt8 := chunkAt 65536 dump 0

/-- A secret as it is reported. -/
structure Credential where
  value : Option PyStr
  redacted : Bool
  physicalOffset : ℕ
deriving DecidableEq

def credential (includeSecrets : Bool) (token : PyStr) (physOff : ℕ) : Credential :=
  { value := if includeSecrets then some token else none
    redacted := !includeSecrets
    physicalOffset := physOff }

theorem length_of_extractToken {chunk : List UInt8} {offset : ℕ} {token : PyStr}
    (h : extractToken chunk offset = some token) : offset < chunk.length := by
  by_contra hle
  have hnil : chunkAt 64 chunk offset = [] := by
    unfold chunkAt
    rw [List.drop_eq_nil_of_le (not_lt.mp hle), List.take_nil]
  unfold extractToken at h
  rw [hnil] at h
  cases h

/-- **There is a token** where a visible byte is. -/
theorem extractToken_isSome_iff {chunk : List UInt8} {offset : ℕ} :
    (extractToken chunk offset).isSome ↔ ∃ b, chunk[offset]? = some b ∧ Visible b := by
  have hsolid : ∀ c ∈ ofBytes ((chunkAt 64 chunk offset).takeWhile fun b => 32 < b && b ≤ 126),
      Solid c := by
    intro c hc
    obtain ⟨b, hb, rfl⟩ := List.mem_map.mp hc
    have hvis := List.mem_takeWhile_imp hb
    simp only [Bool.and_eq_true, decide_eq_true_eq] at hvis
    exact solid_of_visible b hvis
  have hfirst : (chunkAt 64 chunk offset)[0]? = chunk[offset]? := getElem?_chunkAt (by decide)
  unfold extractToken
  dsimp only
  rw [strip_of_solid hsolid]
  cases hchunk : chunkAt 64 chunk offset with
  | nil =>
    rw [hchunk, List.getElem?_nil] at hfirst
    rw [← hfirst]
    simp [ofBytes]
  | cons b bs =>
    rw [hchunk, List.getElem?_cons_zero] at hfirst
    rw [← hfirst]
    by_cases hvis : Visible b
    · have htake : (b :: bs).takeWhile (fun b => 32 < b && b ≤ 126) =
          b :: bs.takeWhile (fun b => 32 < b && b ≤ 126) :=
        List.takeWhile_cons_of_pos (by simp [hvis.1, hvis.2])
      rw [htake]
      simp [ofBytes, hvis]
    · have htake : (b :: bs).takeWhile (fun b => 32 < b && b ≤ 126) = [] := by
        refine List.takeWhile_cons_of_neg fun h => hvis ?_
        simp only [Bool.and_eq_true, decide_eq_true_eq] at h
        exact h
      rw [htake]
      simp [ofBytes, hvis]

end VantaCore.Extractors.Cisco.Text
