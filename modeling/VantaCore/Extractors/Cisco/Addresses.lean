import VantaCore.Extractors.Cisco.Text
import VantaCore.Lib.PyPrinting

/-! # Printed addresses

An IPv4 address is printed as its octets with dots between them, and read back as them
(`map_int_text`). -/

namespace VantaCore.Extractors.Cisco.Addresses

open VantaCore.Lib.PyText VantaCore.Lib.PyFields VantaCore.Lib.PyPrinting
open VantaCore.Extractors.Cisco.Text

/-- An IPv4 address. -/
@[ext]
structure Address where
  octets : List UInt8
  four : octets.length = 4
deriving DecidableEq

variable (a : Address)

/-- The octets with dots between them, as they are printed. -/
def Address.printed : List UInt8 := [46].intercalate (a.octets.map fun o => digitBytes o.toNat)

/-- The octets with dots between them. -/
def Address.text : PyStr := join "." (a.octets.map fun o => ofString (toString o.toNat))

variable {a}

theorem ofBytes_printed : ofBytes a.printed = a.text := by
  unfold Address.printed Address.text
  rw [ofBytes_intercalate_of (s := ".") (by decide), List.map_map]
  exact congrArg (join ".") (List.map_congr_left fun o _ => ofBytes_digitBytes)

theorem splitChar_text : splitChar '.' a.text = a.octets.map fun o => ofString (toString o.toNat) := by
  have hne : a.octets.map (fun o => ofString (toString o.toNat)) ≠ [] :=
    List.ne_nil_of_length_pos (by rw [List.length_map, a.four]; decide)
  refine splitChar_join (by decide) hne fun part hpart hdot => ?_
  obtain ⟨o, -, rfl⟩ := List.mem_map.mp hpart
  rw [← ofBytes_digitBytes] at hdot
  have hdigit := digit_of_mem_digitBytes (mem_ofBytes_iff (b := 46).mp hdot)
  exact absurd hdigit.1 (by decide)

/-- **An address is read as its octets.** -/
theorem map_int_text :
    (splitChar '.' a.text).map int = (a.octets.map fun o => (o.toNat : ℤ)).map some := by
  rw [splitChar_text, List.map_map, List.map_map]
  exact List.map_congr_left fun o _ => int_toString

theorem fourOctets_text : fourOctets a.text = true := by
  unfold fourOctets
  dsimp only
  rw [splitChar_text, List.length_map, a.four]
  refine Bool.and_eq_true_iff.mpr ⟨rfl, List.all_eq_true.mpr fun p hp => ?_⟩
  obtain ⟨o, -, rfl⟩ := List.mem_map.mp hp
  rw [int_toString]
  have := o.toNat_lt
  exact Bool.and_eq_true_iff.mpr ⟨decide_eq_true (by omega), decide_eq_true (by omega)⟩

/-- The text tells the address. -/
theorem text_injective : Function.Injective Address.text := by
  intro a b h
  have hints := map_int_text (a := a)
  rw [h, map_int_text (a := b)] at hints
  rw [List.map_map, List.map_map] at hints
  refine Address.ext (List.map_injective_iff.mpr (fun o o' heq => ?_) hints.symm)
  have hnat : o.toNat = o'.toNat := by simpa using heq
  exact UInt8.toNat_inj.mp hnat

/-- An address is printed in digits and dots. -/
theorem byte_of_mem_printed {b : UInt8} (h : b ∈ a.printed) : 46 ≤ b.toNat ∧ b.toNat ≤ 57 := by
  rcases mem_intercalate h with hdot | ⟨part, hpart, hmem⟩
  · rw [List.mem_singleton.mp hdot]
    decide
  · obtain ⟨o, -, rfl⟩ := List.mem_map.mp hpart
    have := digit_of_mem_digitBytes hmem
    omega

theorem length_printed_le : a.printed.length ≤ 16 := by
  have hlen : ∀ part ∈ a.octets.map fun o => digitBytes o.toNat, part.length ≤ 3 := by
    intro part hpart
    obtain ⟨o, -, rfl⟩ := List.mem_map.mp hpart
    have := o.toNat_lt
    exact length_digitBytes_le (by decide) (by omega)
  have hle := @length_intercalate_le _ [46] _ _ hlen
  rwa [List.length_map, a.four] at hle

end VantaCore.Extractors.Cisco.Addresses
