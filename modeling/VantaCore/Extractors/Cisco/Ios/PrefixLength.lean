import VantaCore.Extractors.Cisco.Ios.RoutingTable
import VantaCore.Lib.BinaryMask
import VantaCore.Lib.Bits
import VantaCore.Lib.PyFields

/-! # The prefix length of a mask

`_mask_to_prefix_len` writes the octets of a mask in binary, looks for `01` in the text and counts the
ones. This finds the length of exactly the masks of leading ones (`maskToPrefixLen_eq_some_iff`), and
the network of a static route is the one its mask gives (`maskToPrefixLen_spec`). The validator strips
brackets and commas that the conversion does not, but a text with one of them is not converted
(`stripChars_of_ints`). -/

namespace VantaCore.Extractors.Cisco.Ios.PrefixLength

open VantaCore.Lib VantaCore.Lib.PyText VantaCore.Lib.PyFields VantaCore.Lib.BinaryMask
open VantaCore.Extractors.Cisco.Text VantaCore.Extractors.Cisco.Ios.RoutingTable

variable {s : PyStr} {octets : List ℤ} {k : ℕ}

/-! ### Octets -/

/-- The text splits at dots into four parts that `int` reads as octets. -/
structure ReadsAs (s : PyStr) (octets : List ℤ) : Prop where
  read : (splitChar '.' s).map int = octets.map some
  four : octets.length = 4
  octet : ∀ o ∈ octets, 0 ≤ o ∧ o ≤ 255

/-- The 32-bit value of the octets. -/
def addressOf (octets : List ℤ) : ℕ := octets.foldl (fun v o => 256 * v + o.toNat) 0

theorem mapM_eq_some_iff {α β : Type*} {f : α → Option β} : ∀ {l : List α} {bs : List β},
    l.mapM f = some bs ↔ l.map f = bs.map some
  | [], bs => by cases bs <;> simp
  | a :: l, bs => by
    rw [List.mapM_cons, List.map_cons]
    cases bs with
    | nil => cases f a <;> cases l.mapM f <;> simp
    | cons b bs =>
      rw [List.map_cons, List.cons.injEq, ← mapM_eq_some_iff]
      cases f a <;> cases l.mapM f <;> simp

theorem fourOctets_of_readsAs (h : ReadsAs s octets) : fourOctets s = true := by
  have hlen : (splitChar '.' s).length = 4 := by
    have := congrArg List.length h.read
    rwa [List.length_map, List.length_map, h.four] at this
  unfold fourOctets
  refine Bool.and_eq_true_iff.mpr ⟨decide_eq_true hlen, List.all_eq_true.mpr fun p hp => ?_⟩
  have hmem : int p ∈ octets.map some := by
    rw [← h.read]
    exact List.mem_map_of_mem hp
  obtain ⟨o, ho, heq⟩ := List.mem_map.mp hmem
  have hoctet := h.octet o ho
  rw [← heq]
  exact Bool.and_eq_true_iff.mpr ⟨decide_eq_true hoctet.1, decide_eq_true hoctet.2⟩

/-- Four octets that are read as `octets`. -/
theorem readsAs_of_fourOctets (hfour : fourOctets s = true)
    (hread : (splitChar '.' s).map int = octets.map some) : ReadsAs s octets := by
  obtain ⟨hlen, hall⟩ := Bool.and_eq_true_iff.mp hfour
  have hlen' := congrArg List.length hread
  rw [List.length_map, List.length_map, of_decide_eq_true hlen] at hlen'
  refine ⟨hread, hlen'.symm, fun o ho => ?_⟩
  have hmem : some o ∈ (splitChar '.' s).map int := by
    rw [hread]
    exact List.mem_map_of_mem ho
  obtain ⟨p, hp, hint⟩ := List.mem_map.mp hmem
  have hoctet := List.all_eq_true.mp hall p hp
  rw [hint] at hoctet
  obtain ⟨h0, h255⟩ := Bool.and_eq_true_iff.mp hoctet
  exact ⟨of_decide_eq_true h0, of_decide_eq_true h255⟩

/-- **The validator strips nothing** from a text whose parts are numbers. -/
theorem stripChars_of_ints (h : (splitChar '.' s).map int = octets.map some) :
    stripChars "[],;()" s = s := by
  have hchars : ∀ c ∈ s, decide (c ∈ ofString "[],;()") = false := by
    intro c hc
    rw [decide_eq_false_iff_not]
    intro hmem
    have hdot : c ≠ char '.' := by
      rintro rfl
      exact absurd hmem (by decide)
    obtain ⟨p, hp, hcp⟩ := mem_splitChar_iff.mpr ⟨hc, hdot⟩
    have hint : int p ∈ octets.map some := by
      rw [← h]
      exact List.mem_map_of_mem hp
    obtain ⟨o, -, ho⟩ := List.mem_map.mp hint
    have hchar := intChar_of_int ho.symm c hcp
    have hvals : (ofString "[],;()").map (·.val) = [91, 93, 44, 59, 40, 41] := by decide
    have hbracket : ∀ k ∈ [91, 93, 44, 59, 40, 41], k < 127 ∧ ¬ IntChar k := by decide
    have hval : c.val ∈ (ofString "[],;()").map (·.val) := List.mem_map_of_mem hmem
    rw [hvals] at hval
    obtain ⟨hascii, hno⟩ := hbracket c.val hval
    rw [toAscii, if_pos hascii] at hchar
    exact hno hchar
  unfold stripChars
  rw [dropWhile_eq_self hchars, rdropWhile_eq_self hchars]

/-! ### Binary -/

theorem length_flatMap_binary : ∀ octets : List ℤ,
    (octets.flatMap binary).length = 8 * octets.length
  | [] => rfl
  | o :: octets => by
    rw [List.flatMap_cons, List.length_append, length_flatMap_binary octets, List.length_cons,
      show (binary o).length = 8 from length_digits]
    omega

/-- **The value of the text** is that of the octets. -/
theorem value_flatMap_binary : ∀ {octets : List ℤ} (v : ℕ), (∀ o ∈ octets, 0 ≤ o ∧ o ≤ 255) →
    octets.foldl (fun v o => 256 * v + o.toNat) v =
      v * 2 ^ (8 * octets.length) + value (octets.flatMap binary)
  | [], v, _ => by simp [value]
  | o :: octets, v, h => by
    have ho := h o List.mem_cons_self
    have hvalue : value (binary o) = o.toNat := by
      have hdigits : value (binary o) = o.toNat % 2 ^ 8 := value_digits 8 o.toNat
      omega
    rw [List.foldl_cons, value_flatMap_binary _ fun o ho => h o (List.mem_cons_of_mem _ ho),
      List.flatMap_cons, value_append, hvalue, length_flatMap_binary, List.length_cons,
      Nat.mul_succ, pow_add]
    ring

theorem value_octets (h : ReadsAs s octets) :
    value (octets.flatMap binary) = addressOf octets ∧ (octets.flatMap binary).length = 32 := by
  have hvalue := value_flatMap_binary 0 h.octet
  rw [Nat.zero_mul, Nat.zero_add] at hvalue
  exact ⟨hvalue.symm, by rw [length_flatMap_binary, h.four]⟩

/-! ### The length -/

/-- **The masks that have a length.** -/
theorem maskToPrefixLen_eq_some_iff : maskToPrefixLen s = some k ↔
    ∃ octets, ReadsAs s octets ∧ k ≤ 32 ∧ addressOf octets = 2 ^ 32 - 2 ^ (32 - k) := by
  constructor
  · intro h
    unfold maskToPrefixLen at h
    split_ifs at h with hvalid
    cases hmap : (splitChar '.' s).mapM int with
    | none =>
      rw [hmap] at h
      cases h
    | some octets =>
      rw [hmap] at h
      dsimp only at h
      split_ifs at h with hrise
      have hread := mapM_eq_some_iff.mp hmap
      unfold isValidIp at hvalid
      rw [stripChars_of_ints hread] at hvalid
      have hoctets := readsAs_of_fourOctets hvalid hread
      obtain ⟨hvalue, hlen⟩ := value_octets hoctets
      have hmask := isMask_iff.mp ⟨hrise, Option.some.inj h⟩
      rw [hvalue, hlen] at hmask
      exact ⟨octets, hoctets, hmask⟩
  · rintro ⟨octets, hoctets, hmask⟩
    obtain ⟨hvalue, hlen⟩ := value_octets hoctets
    have hvalid : isValidIp s = true := by
      unfold isValidIp
      rw [stripChars_of_ints hoctets.read]
      exact fourOctets_of_readsAs hoctets
    rw [← hvalue, ← hlen] at hmask
    obtain ⟨hrise, hcount⟩ := isMask_iff.mpr hmask
    unfold maskToPrefixLen
    rw [if_pos hvalid, mapM_eq_some_iff.mpr hoctets.read]
    dsimp only
    rw [if_neg hrise, hcount]

/-! ### Networks -/

/-- The addresses of the network of an address under a mask. -/
def maskedNetwork (net mask : ℕ) : Set ℕ := {a | a < 2 ^ 32 ∧ a &&& mask = net &&& mask}

/-- The addresses that have the first `k` bits of an address. -/
def prefixNetwork (net k : ℕ) : Set ℕ := {a | a < 2 ^ 32 ∧ a >>> (32 - k) = net >>> (32 - k)}

/-- **A prefix length and its mask denote one network.** -/
theorem maskedNetwork_eq {net : ℕ} (hk : k ≤ 32) (hnet : net < 2 ^ 32) :
    maskedNetwork net (2 ^ 32 - 2 ^ (32 - k)) = prefixNetwork net k := by
  have hsum : 32 - k + k = 32 := by omega
  have hand : ∀ a < 2 ^ 32, a &&& (2 ^ 32 - 2 ^ (32 - k)) = a >>> (32 - k) * 2 ^ (32 - k) := by
    intro a ha
    have hfield := Bits.and_field (32 - k) k a
    rw [hsum] at hfield
    rw [hfield, Bits.field_eq_of_lt (by rwa [hsum]), Nat.shiftRight_eq_div_pow]
  refine Set.ext fun a => and_congr_right fun ha => ?_
  rw [hand a ha, hand net hnet]
  exact Nat.mul_left_inj (by positivity)

/-- What a static route says: its network is printed with a length only where the mask has one, and
denotes what the mask does. -/
def DenotesMask (net mask network : PyStr) : Prop :=
  maskToPrefixLen mask = none ∧ network = net ++ ofString " " ++ mask ∨
    ∃ k octets, maskToPrefixLen mask = some k ∧
      network = net ++ ofString "/" ++ ofString (toString k) ∧ ReadsAs mask octets ∧
      ∀ a < 2 ^ 32, maskedNetwork a (addressOf octets) = prefixNetwork a k

theorem denotesMask_networkOf (net mask : PyStr) : DenotesMask net mask (networkOf net mask) := by
  unfold DenotesMask networkOf
  cases hlen : maskToPrefixLen mask with
  | none => exact Or.inl ⟨rfl, rfl⟩
  | some k =>
    obtain ⟨octets, hoctets, hk, hvalue⟩ := maskToPrefixLen_eq_some_iff.mp hlen
    refine Or.inr ⟨k, octets, rfl, rfl, hoctets, fun a ha => ?_⟩
    rw [hvalue]
    exact maskedNetwork_eq hk ha

theorem denotesMask_of_parseIpRoute {snippet : List UInt8} {r : Route}
    (h : parseIpRoute snippet = some r) : ∃ net mask rest,
      split (lineOf snippet) = ofString "ip" :: ofString "route" :: net :: mask :: rest ∧
        DenotesMask net mask r.network := by
  unfold parseIpRoute at h
  split at h
  · next first second net mask hop rest heq =>
    by_cases hwords : first = ofString "ip" ∧ second = ofString "route" ∧ isValidIp net ∧
        isValidIp mask
    · rw [if_pos hwords] at h
      obtain rfl := Option.some.inj h
      refine ⟨net, mask, hop :: rest, ?_, denotesMask_networkOf net mask⟩
      rw [heq, hwords.1, hwords.2.1]
    · rw [if_neg hwords] at h
      cases h
  · cases h

/-- **The length of a mask** is `k` exactly if the text reads as the mask of `k` leading ones, and a
static route that is printed with a length denotes the network of its mask. -/
theorem maskToPrefixLen_spec (s : PyStr) :
    (∀ k, maskToPrefixLen s = some k ↔
      ∃ octets, ReadsAs s octets ∧ k ≤ 32 ∧ addressOf octets = 2 ^ 32 - 2 ^ (32 - k)) ∧
    (maskToPrefixLen s = none ↔
      ¬ ∃ k octets, ReadsAs s octets ∧ k ≤ 32 ∧ addressOf octets = 2 ^ 32 - 2 ^ (32 - k)) ∧
    ∀ snippet r, parseIpRoute snippet = some r → ∃ net mask rest,
      split (lineOf snippet) = ofString "ip" :: ofString "route" :: net :: mask :: rest ∧
        DenotesMask net mask r.network := by
  refine ⟨fun k => maskToPrefixLen_eq_some_iff, ?_, fun _ _ => denotesMask_of_parseIpRoute⟩
  simp only [← maskToPrefixLen_eq_some_iff]
  rw [Option.eq_none_iff_forall_ne_some, not_exists]

end VantaCore.Extractors.Cisco.Ios.PrefixLength
