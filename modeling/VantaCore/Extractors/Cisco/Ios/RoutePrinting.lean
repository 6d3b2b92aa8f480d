import VantaCore.Extractors.Cisco.Addresses
import VantaCore.Extractors.Cisco.Lines
import VantaCore.Extractors.Cisco.Ios.PrefixLength

/-! # Printed static routes

Configuration lines `ip route NET MASK HOP`. The routing table reads them back: in an image that shows
them between other lines, the first route to each network is reported where it stands, with its next hop
and the length of its mask (`run_routes`). -/

namespace VantaCore.Extractors.Cisco.Ios.RoutePrinting

open VantaCore.Core.DumpHandle VantaCore.Lib.Chunks VantaCore.Lib.Search VantaCore.Lib.PyText
open VantaCore.Lib.PyFields VantaCore.Lib.PyPrinting VantaCore.Lib.FirstBy
open VantaCore.Extractors.Cisco.TextScan VantaCore.Extractors.Cisco.ChunkEnds
open VantaCore.Extractors.Cisco.Text VantaCore.Extractors.Cisco.Addresses
open VantaCore.Extractors.Cisco.Lines
open VantaCore.Extractors.Cisco.Ios.RoutingTable VantaCore.Extractors.Cisco.Ios.PrefixLength

/-! ### Masks -/

variable {a : Address}

theorem readsAs_text : ReadsAs a.text (a.octets.map fun o => (o.toNat : ℤ)) where
  read := map_int_text
  four := by rw [List.length_map, a.four]
  octet o ho := by
    obtain ⟨b, -, rfl⟩ := List.mem_map.mp ho
    have := b.toNat_lt
    omega

theorem isValidIp_text : isValidIp a.text = true := by
  unfold isValidIp
  rw [stripChars_of_ints map_int_text]
  exact fourOctets_text

/-- The mask of `k` leading ones. -/
def mask (k : ℕ) : Address where
  octets := [24, 16, 8, 0].map fun s => UInt8.ofNat ((2 ^ 32 - 2 ^ (32 - k)) >>> s)
  four := rfl

/-- **The length of a mask is read back.** -/
theorem maskToPrefixLen_mask {k : ℕ} (hk : k ≤ 32) : maskToPrefixLen (mask k).text = some k := by
  refine maskToPrefixLen_eq_some_iff.mpr ⟨_, readsAs_text, hk, ?_⟩
  have hlt : 2 ^ 32 - 2 ^ (32 - k) < 2 ^ 32 := Nat.sub_lt (by positivity) (by positivity)
  generalize hv : 2 ^ 32 - 2 ^ (32 - k) = v at hlt
  simp only [mask, hv, addressOf, List.map_cons, List.map_nil, List.foldl_cons, List.foldl_nil,
    Nat.shiftRight_eq_div_pow, UInt8.toNat_ofNat', Int.toNat_natCast]
  omega

/-! ### Routes -/

/-- `ip route NET MASK HOP` -/
structure StaticRoute where
  network : Address
  prefixLen : ℕ
  hop : Address
  prefixLen_le : prefixLen ≤ 32

variable (r : StaticRoute)

/-- The fields of the line. -/
def StaticRoute.fields : List (List UInt8) :=
  [ascii "ip", ascii "route", r.network.printed, (mask r.prefixLen).printed, r.hop.printed]

def StaticRoute.printed : List UInt8 := [32].intercalate r.fields

/-- What is to be known of a route. -/
def StaticRoute.destination : Address × ℕ := (r.network, r.prefixLen)

/-- The text of a network. -/
def networkText (d : Address × ℕ) : PyStr := d.1.text ++ ofString "/" ++ ofString (toString d.2)

/-- The route that is meant. -/
def StaticRoute.route : Route := ⟨"STATIC", networkText r.destination, r.hop.text⟩

variable {r}

theorem networkText_injective : Function.Injective networkText := by
  have hslash : ∀ a : Address, char '/' ∉ a.text := by
    intro a hmem
    rw [← ofBytes_printed] at hmem
    have hbyte : (47 : UInt8) ∈ a.printed := mem_ofBytes_iff.mp hmem
    rcases mem_intercalate hbyte with hdot | ⟨part, hpart, hdigit⟩
    · exact absurd hdot (by decide)
    · obtain ⟨o, -, rfl⟩ := List.mem_map.mp hpart
      exact absurd (digit_of_mem_digitBytes hdigit).1 (by decide)
  intro d d' h
  have hsep : ofString "/" = [char '/'] := by decide
  unfold networkText at h
  rw [hsep, List.append_assoc, List.append_assoc, List.singleton_append, List.singleton_append] at h
  have hnetwork := congrArg (before '/') h
  rw [before_append_cons, before_append_cons, before_of_not_mem (hslash _),
    before_of_not_mem (hslash _)] at hnetwork
  rw [hnetwork] at h
  have hlen := (List.cons.inj (List.append_cancel_left h)).2
  have hint := congrArg int hlen
  rw [int_toString, int_toString, Option.some_inj, Nat.cast_inj] at hint
  exact Prod.ext (text_injective hnetwork) hint

theorem visible_of_mem_fields : ∀ f ∈ r.fields, f ≠ [] ∧ ∀ b ∈ f, Visible b := by
  have hwords : ∀ f ∈ [ascii "ip", ascii "route"], f ≠ [] ∧ ∀ b ∈ f, Visible b := by
    decide +kernel
  have haddress : ∀ a : Address, a.printed ≠ [] ∧ ∀ b ∈ a.printed, Visible b := by
    refine fun a => ⟨fun hnil => ?_, fun b hb => ?_⟩
    · have hvalid := isValidIp_text (a := a)
      rw [← ofBytes_printed, hnil] at hvalid
      exact absurd hvalid (by decide)
    · have hrange := byte_of_mem_printed hb
      have hlow : (32 : UInt8).toNat = 32 := rfl
      have hhigh : (126 : UInt8).toNat = 126 := rfl
      exact ⟨UInt8.lt_iff_toNat_lt.mpr (by omega), UInt8.le_iff_toNat_le.mpr (by omega)⟩
  intro f hf
  unfold StaticRoute.fields at hf
  simp only [List.mem_cons, List.not_mem_nil, or_false] at hf
  rcases hf with rfl | rfl | rfl | rfl | rfl
  exacts [hwords _ (by decide), hwords _ (by decide), haddress _, haddress _, haddress _]

/-- **A printed route is read as the route that is meant.** -/
theorem parseIpRoute_printed : parseIpRoute r.printed = some r.route := by
  have hip : ofBytes (ascii "ip") = ofString "ip" := by decide
  have hroute : ofBytes (ascii "route") = ofString "route" := by decide
  have hnetwork : networkOf r.network.text (mask r.prefixLen).text = networkText r.destination := by
    unfold networkOf
    rw [maskToPrefixLen_mask r.prefixLen_le]
    rfl
  unfold parseIpRoute StaticRoute.printed
  rw [split_lineOf visible_of_mem_fields]
  simp only [StaticRoute.fields, List.map_cons, List.map_nil, hip, hroute, ofBytes_printed]
  rw [if_pos ⟨trivial, trivial, isValidIp_text, isValidIp_text⟩, hnetwork, if_pos isValidIp_text]
  rfl

/-- Behind the keyword a printed route holds no letter. -/
theorem exists_printed_eq : ∃ rest, r.printed = ascii "ip route " ++ rest ∧
    ∀ b ∈ rest, b.toNat ≤ 57 := by
  refine ⟨[32].intercalate [r.network.printed, (mask r.prefixLen).printed, r.hop.printed], ?_, ?_⟩
  · have hwords : ascii "ip route " = ascii "ip" ++ ([32] ++ (ascii "route" ++ [32])) := by decide
    rw [hwords]
    simp [StaticRoute.printed, StaticRoute.fields, List.intercalate]
  · intro b hb
    rcases mem_intercalate hb with hspace | ⟨f, hf, hmem⟩
    · rw [List.mem_singleton.mp hspace]
      decide
    · simp only [List.mem_cons, List.not_mem_nil, or_false] at hf
      rcases hf with rfl | rfl | rfl <;> exact (byte_of_mem_printed hmem).2

theorem not_occursAt_code {x : UInt8} {p : List UInt8} {i : ℕ} (hlow : 65 ≤ x.toNat)
    (hhigh : x.toNat ≤ 90) : ¬ OccursAt (x :: p) r.printed i := by
  intro hocc
  obtain ⟨rest, hprinted, hrest⟩ := @exists_printed_eq r
  have hmem : x ∈ r.printed := List.mem_of_getElem? (hocc.getElem? (k := 0) (Nat.succ_pos _))
  have hwords : ∀ b ∈ ascii "ip route ", b.toNat < 65 ∨ 90 < b.toNat := by decide +kernel
  rw [hprinted, List.mem_append] at hmem
  rcases hmem with hmem | hmem
  · have := hwords x hmem
    omega
  · have := hrest x hmem
    omega

theorem eq_zero_of_occursAt {i : ℕ} (hocc : OccursAt (ascii "ip route ") r.printed i) : i = 0 := by
  obtain ⟨rest, hprinted, hrest⟩ := @exists_printed_eq r
  have hfirst : r.printed[i]? = some 105 := hocc.getElem? (k := 0) (by decide)
  have hword : ∀ j < (ascii "ip route ").length, (ascii "ip route ")[j]? = some 105 → j = 0 := by decide
  rw [hprinted] at hfirst
  rcases Nat.lt_or_ge i (ascii "ip route ").length with hlt | hge
  · rw [List.getElem?_append_left hlt] at hfirst
    exact hword i hlt hfirst
  · rw [List.getElem?_append_right hge] at hfirst
    exact absurd (hrest 105 (List.mem_of_getElem? hfirst)) (by decide)

theorem length_printed_route_le : r.printed.length ≤ 128 := by
  have hlen : ∀ f ∈ r.fields, f.length ≤ 16 := by
    intro f hf
    unfold StaticRoute.fields at hf
    simp only [List.mem_cons, List.not_mem_nil, or_false] at hf
    rcases hf with rfl | rfl | rfl | rfl | rfl
    exacts [by decide, by decide, length_printed_le, length_printed_le, length_printed_le]
  have hle : r.printed.length ≤ 5 * (16 + 1) := length_intercalate_le hlen
  omega

theorem length_ipRoute_le : (ascii "ip route ").length ≤ 128 := by decide

/-- The search for configuration lines. -/
def ipRoutePass : Pass Route :=
  ⟨ascii "ip route ", 128, parseIpRoute, ipRoute_ne_nil, length_ipRoute_le⟩

/-- **The passes read printed routes back.** -/
theorem readsBack : ReadsBack passes StaticRoute.printed IsStop (fun _ => 6) StaticRoute.route where
  separator p hp b hb := by
    have hpatterns : ∀ p ∈ passes, 0 ∉ p.pattern ∧ 10 ∉ p.pattern := by decide
    rcases hb with rfl | rfl
    exacts [(hpatterns p hp).1, (hpatterns p hp).2]
  found r := by
    obtain ⟨rest, hprinted, -⟩ := @exists_printed_eq r
    have hparse : ipRoutePass.parse = parseIpRoute := rfl
    refine ⟨ipRoutePass, rfl, ?_, length_printed_route_le, ?_, fun b hb rest => ?_⟩
    · rw [hprinted]
      exact List.take_left
    · rw [hparse, parseIpRoute_printed]
    · rw [hparse, parseIpRoute, parseIpRoute, lineOf_append hb]
  start r k p hp i hocc := by
    rcases k with _ | _ | _ | _ | _ | _ | _ | k <;> cases hp
    iterate 6
      · exact absurd hocc (not_occursAt_code (by decide) (by decide))
    · exact ⟨rfl, eq_zero_of_occursAt hocc⟩

/-! ### Images -/

/-- What is reported of a route at a position. -/
def entryAt (a : ℕ × StaticRoute) : RouteEntry := ⟨a.2.route, a.1⟩

/-- **Printed routes are reported**: of the routes to one network the first one, where it stands. -/
theorem run_routes {n : ℕ} {items : List (Item StaticRoute × UInt8)} (hn : 0 < n)
    (hlen : (image StaticRoute.printed items).length ≤ maxHops * n)
    (hf : Fits n passes StaticRoute.printed IsStop items) :
    run n (image StaticRoute.printed items) =
      (firsts (fun a => a.2.destination) [] (recordsAt StaticRoute.printed 0 items)).map entryAt := by
  have hkey : ∀ a b : ℕ × StaticRoute, hitKey (hitOf (fun _ => 6) StaticRoute.route a) =
      hitKey (hitOf (fun _ => 6) StaticRoute.route b) ↔ a.2.destination = b.2.destination := by
    intro a b
    refine Iff.trans ?_ networkText_injective.eq_iff
    exact Prod.mk.injEq .. ▸ and_iff_right rfl
  rw [run_eq hlen, readsBack.hits_eq hf hn rfl, findings, firsts_map, List.map_map]
  exact congrArg (List.map entryAt) (firsts_congr hkey [] _)

/-- A configuration with two routes to `10.1.0.0/16` and a default route. -/
def sampleItems : List (Item StaticRoute × UInt8) :=
  let network : Address := ⟨[10, 1, 0, 0], rfl⟩
  [(.other (ascii "hostname core"), 10),
    (.record ⟨network, 16, ⟨[192, 168, 0, 1], rfl⟩, by decide⟩, 10),
    (.record ⟨network, 16, ⟨[192, 168, 0, 2], rfl⟩, by decide⟩, 10),
    (.record ⟨⟨[0, 0, 0, 0], rfl⟩, 0, ⟨[192, 168, 0, 3], rfl⟩, by decide⟩, 0)]

theorem run_routes_sample : run chunkSize (image StaticRoute.printed sampleItems) =
    [⟨⟨"STATIC", "10.1.0.0/16", "192.168.0.1"⟩, 14⟩,
      ⟨⟨"STATIC", "0.0.0.0/0", "192.168.0.3"⟩, 98⟩] := by
  have hf : Fits chunkSize passes StaticRoute.printed IsStop sampleItems :=
    ⟨by decide, by decide +kernel, by decide +kernel⟩
  rw [run_routes (by decide) (by decide +kernel) hf]
  decide +kernel

end VantaCore.Extractors.Cisco.Ios.RoutePrinting
