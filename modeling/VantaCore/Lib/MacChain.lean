import Mathlib.Data.List.Basic
import Mathlib.Data.Set.Function
import Mathlib.Tactic

/-! # Chains of authentication codes

A record is a payload and the code of the payload followed by the code of the record before
(`Linked`). Payloads and codes are concatenated without a separator: where every payload ends with a
letter that no code has (`Framed`), the concatenation splits in one way (`split`).

* `eq_of_codes_eq`: two chains with the same codes are the same, without collisions.
* `eq_of_last_eq`: so are two framed chains from the empty code with the same last code.
* `prefix_of_messages`: a framed chain that hashes messages of other chains only is the beginning of
  one of them.
* `flatten_of_codes_eq`: chains from the empty code behind each other are one chain only if at most
  one of them has a record.
* `pairwise_of_kept`: records that are left of a chain are a chain only if they are its beginning. -/

namespace VantaCore.Lib.MacChain

variable {α : Type*}

/-- A payload and its code. -/
abbrev Record (α : Type*) := List α × List α

/-- **Every code is the code** of its payload and the code before. -/
def Linked (mac : List α → List α) : List α → List (Record α) → Prop
  | _, [] => True
  | prev, r :: rs => r.2 = mac (r.1 ++ prev) ∧ Linked mac r.2 rs

/-- The messages the codes are of. -/
def messages : List α → List (Record α) → List (List α)
  | _, [] => []
  | prev, r :: rs => (r.1 ++ prev) :: messages r.2 rs

/-- The last code. -/
def last : List α → List (Record α) → List α
  | prev, [] => prev
  | _, r :: rs => last r.2 rs

/-- No message of the one list has the code of another message of the other. -/
def CollisionFree (mac : List α → List α) (ms ms' : List (List α)) : Prop :=
  ∀ m ∈ ms, ∀ m' ∈ ms', mac m = mac m' → m = m'

instance [DecidableEq α] (mac : List α → List α) (ms ms' : List (List α)) :
    Decidable (CollisionFree mac ms ms') :=
  inferInstanceAs (Decidable (∀ m ∈ ms, ∀ m' ∈ ms', mac m = mac m' → m = m'))

variable {mac : List α → List α}

theorem CollisionFree.mono {ms ms' ns ns' : List (List α)} (h : CollisionFree mac ms ms')
    (hsub : ns ⊆ ms) (hsub' : ns' ⊆ ms') : CollisionFree mac ns ns' :=
  fun m hm m' hm' => h m (hsub hm) m' (hsub' hm')

theorem linked_append : ∀ {prev : List α} {rs rs' : List (Record α)},
    Linked mac prev (rs ++ rs') ↔ Linked mac prev rs ∧ Linked mac (last prev rs) rs'
  | _, [], _ => (iff_of_eq (true_and _)).symm
  | _, r :: rs, _ => by
    rw [List.cons_append, Linked, Linked, last, linked_append, and_assoc]

theorem messages_append : ∀ (prev : List α) (rs rs' : List (Record α)),
    messages prev (rs ++ rs') = messages prev rs ++ messages (last prev rs) rs'
  | _, [], _ => rfl
  | _, r :: rs, rs' => congrArg (_ :: ·) (messages_append r.2 rs rs')

theorem last_append : ∀ (prev : List α) (rs rs' : List (Record α)),
    last prev (rs ++ rs') = last (last prev rs) rs'
  | _, [], _ => rfl
  | _, r :: rs, rs' => last_append r.2 rs rs'

theorem last_mem : ∀ (prev : List α) (rs : List (Record α)),
    last prev rs = prev ∧ rs = [] ∨ last prev rs ∈ rs.map Prod.snd
  | _, [] => Or.inl ⟨rfl, rfl⟩
  | _, r :: rs => by
    rcases last_mem r.2 rs with ⟨h, -⟩ | h
    · exact Or.inr (List.mem_cons.mpr (Or.inl h))
    · exact Or.inr (List.mem_cons_of_mem _ h)

theorem last_eq_getLast : ∀ {prev : List α} {rs : List (Record α)} (h : rs ≠ []),
    last prev rs = (rs.getLast h).2
  | _, [r], _ => rfl
  | _, r :: r' :: rs, _ => by rw [last, last_eq_getLast (by simp), List.getLast_cons_cons]

theorem code_of_linked : ∀ {prev : List α} {rs : List (Record α)}, Linked mac prev rs →
    ∀ r ∈ rs, ∃ m, r.2 = mac m
  | _, [], _, _, hr => absurd hr List.not_mem_nil
  | _, _ :: rs, h, r, hr => by
    rcases List.mem_cons.mp hr with rfl | hr
    · exact ⟨_, h.1⟩
    · exact code_of_linked h.2 r hr

/-- The code of a record is that of a message of the chain. -/
theorem code_mem_messages : ∀ {prev : List α} {rs : List (Record α)}, Linked mac prev rs →
    ∀ r ∈ rs, ∃ m ∈ messages prev rs, r.2 = mac m
  | _, [], _, _, hr => absurd hr List.not_mem_nil
  | _, _ :: rs, h, r, hr => by
    rcases List.mem_cons.mp hr with rfl | hr
    · exact ⟨_, List.mem_cons_self, h.1⟩
    · obtain ⟨m, hm, hcode⟩ := code_mem_messages h.2 r hr
      exact ⟨m, List.mem_cons_of_mem _ hm, hcode⟩

/-- Two functions that link the same records agree on their messages. -/
theorem mac_eq_of_linked {mac' : List α → List α} : ∀ {prev : List α} {rs : List (Record α)},
    Linked mac prev rs → Linked mac' prev rs → ∀ m ∈ messages prev rs, mac m = mac' m
  | _, [], _, _, _, hm => absurd hm List.not_mem_nil
  | _, r :: rs, h, h', m, hm => by
    rcases List.mem_cons.mp hm with rfl | hm
    · rw [← h.1, ← h'.1]
    · exact mac_eq_of_linked h.2 h'.2 m hm

theorem Linked.congr {mac' : List α → List α} : ∀ {prev : List α} {rs : List (Record α)},
    Linked mac prev rs → (∀ m ∈ messages prev rs, mac m = mac' m) → Linked mac' prev rs
  | _, [], _, _ => trivial
  | _, _ :: _, h, heq =>
    ⟨h.1.trans (heq _ List.mem_cons_self), h.2.congr fun m hm => heq m (List.mem_cons_of_mem _ hm)⟩

/-! ### The same codes -/

/-- **Two chains with the same codes** are the same, if their messages do not collide. -/
theorem eq_of_codes_eq : ∀ {prev : List α} {rs rs' : List (Record α)}, Linked mac prev rs →
    Linked mac prev rs' → rs.map Prod.snd = rs'.map Prod.snd →
    CollisionFree mac (messages prev rs) (messages prev rs') → rs = rs'
  | _, [], [], _, _, _, _ => rfl
  | _, [], r' :: rs', _, _, h, _ => absurd h (by simp)
  | _, r :: rs, [], _, _, h, _ => absurd h (by simp)
  | prev, r :: rs, r' :: rs', hrs, hrs', h, hfree => by
    rw [List.map_cons, List.map_cons, List.cons.injEq] at h
    have hmac : mac (r.1 ++ prev) = mac (r'.1 ++ prev) := by rw [← hrs.1, ← hrs'.1, h.1]
    have hmsg := hfree _ List.mem_cons_self _ List.mem_cons_self hmac
    have hr : r = r' := Prod.ext (List.append_cancel_right hmsg) h.1
    subst hr
    rw [eq_of_codes_eq hrs.2 hrs'.2 h.2
      (hfree.mono (List.subset_cons_self _ _) (List.subset_cons_self _ _))]

/-! ### Framed chains -/

/-- The payloads end with a letter that no code has, and no code is empty. -/
structure Framed (c : α) (rs : List (Record α)) : Prop where
  payload : ∀ r ∈ rs, ∃ l, r.1 = l ++ [c]
  code : ∀ r ∈ rs, c ∉ r.2
  nonempty : ∀ r ∈ rs, r.2 ≠ []

theorem Framed.of_subset {c : α} {rs rs' : List (Record α)} (h : Framed c rs) (hsub : rs' ⊆ rs) :
    Framed c rs' :=
  ⟨fun r hr => h.payload r (hsub hr), fun r hr => h.code r (hsub hr),
    fun r hr => h.nonempty r (hsub hr)⟩

/-- **One way to split.** -/
theorem split {c : α} : ∀ {l l' h h' : List α}, c ∉ h → c ∉ h' →
    l ++ [c] ++ h = l' ++ [c] ++ h' → l = l' ∧ h = h'
  | [], [], _, _, _, _, heq => ⟨rfl, List.cons_injective heq⟩
  | [], a :: l', h, h', hh, _, heq => by
    simp only [List.nil_append, List.cons_append, List.cons.injEq, List.append_assoc] at heq
    exact absurd (heq.2 ▸ by simp) hh
  | a :: l, [], h, h', _, hh', heq => by
    simp only [List.nil_append, List.cons_append, List.cons.injEq, List.append_assoc] at heq
    exact absurd (heq.2 ▸ by simp) hh'
  | a :: l, a' :: l', h, h', hh, hh', heq => by
    simp only [List.cons_append, List.cons.injEq] at heq
    obtain ⟨rfl, rfl⟩ := split hh hh' heq.2
    exact ⟨by rw [heq.1], rfl⟩

theorem payload_eq {c : α} {p p' h h' : List α} (hp : ∃ l, p = l ++ [c]) (hp' : ∃ l, p' = l ++ [c])
    (hh : c ∉ h) (hh' : c ∉ h') (heq : p ++ h = p' ++ h') : p = p' ∧ h = h' := by
  obtain ⟨l, rfl⟩ := hp
  obtain ⟨l', rfl⟩ := hp'
  obtain ⟨rfl, rfl⟩ := split hh hh' heq
  exact ⟨rfl, rfl⟩

theorem Framed.not_mem_last {c : α} {rs : List (Record α)} (h : Framed c rs) {prev : List α}
    (hprev : c ∉ prev) : c ∉ last prev rs := by
  rcases last_mem prev rs with ⟨hlast, -⟩ | hmem
  · rwa [hlast]
  · obtain ⟨r, hr, hlast⟩ := List.mem_map.mp hmem
    exact hlast ▸ h.code r hr

theorem Framed.last_ne_nil {c : α} {rs : List (Record α)} (h : Framed c rs) (hne : rs ≠ [])
    (prev : List α) : last prev rs ≠ [] := by
  rcases last_mem prev rs with ⟨-, hnil⟩ | hmem
  · exact absurd hnil hne
  · obtain ⟨r, hr, hlast⟩ := List.mem_map.mp hmem
    exact hlast ▸ h.nonempty r hr

/-- **The last code stands for the chain**: two framed chains from the empty code with the same last
code are the same, if their messages do not collide. -/
theorem eq_of_last_eq {c : α} {rs rs' : List (Record α)} (hrs : Linked mac [] rs)
    (hrs' : Linked mac [] rs') (hframed : Framed c rs) (hframed' : Framed c rs')
    (hlast : last [] rs = last [] rs')
    (hfree : CollisionFree mac (messages [] rs) (messages [] rs')) : rs = rs' := by
  induction rs using List.reverseRecOn generalizing rs' with
  | nil =>
    by_contra hne
    exact hframed'.last_ne_nil (Ne.symm hne) [] hlast.symm
  | append_singleton rs r ih =>
    rcases List.eq_nil_or_concat' rs' with rfl | ⟨rs', r', rfl⟩
    · exact absurd hlast (hframed.last_ne_nil (by simp) [])
    · rw [linked_append] at hrs hrs'
      rw [last_append, last_append] at hlast
      rw [messages_append, messages_append] at hfree
      have hmac : mac (r.1 ++ last [] rs) = mac (r'.1 ++ last [] rs') := by
        rw [← hrs.2.1, ← hrs'.2.1]; exact hlast
      have hmsg := hfree _ (List.mem_append_right _ List.mem_cons_self) _
        (List.mem_append_right _ List.mem_cons_self) hmac
      have hsub := hframed.of_subset (List.subset_append_left rs [r])
      have hsub' := hframed'.of_subset (List.subset_append_left rs' [r'])
      obtain ⟨hp, hprev⟩ := payload_eq (hframed.payload r (by simp)) (hframed'.payload r' (by simp))
        (hsub.not_mem_last List.not_mem_nil) (hsub'.not_mem_last List.not_mem_nil) hmsg
      rw [ih hrs.1 hrs'.1 hsub hsub' hprev
        (hfree.mono (List.subset_append_left _ _) (List.subset_append_left _ _)), Prod.ext hp hlast]

/-! ### Chains within a chain -/

theorem mem_messages : ∀ {prev m : List α} {rs : List (Record α)}, m ∈ messages prev rs →
    ∃ pre r post, rs = pre ++ r :: post ∧ m = r.1 ++ last prev pre
  | prev, m, r :: rs, h => by
    rcases List.mem_cons.mp h with rfl | h
    · exact ⟨[], r, rs, rfl, rfl⟩
    · obtain ⟨pre, r', post, rfl, rfl⟩ := mem_messages h
      exact ⟨r :: pre, r', post, rfl, rfl⟩

/-- **A chain that hashes messages of other chains only** is the beginning of one of them, if its
messages collide with none of theirs. -/
theorem prefix_of_messages {c : α} {ss : List (List (Record α))}
    (hss : ∀ s ∈ ss, Linked mac [] s ∧ Framed c s) {rs : List (Record α)} (hrs : Linked mac [] rs)
    (hframed : Framed c rs) (hsub : ∀ m ∈ messages [] rs, ∃ s ∈ ss, m ∈ messages [] s)
    (hfree : ∀ s ∈ ss, CollisionFree mac (messages [] rs) (messages [] s)) (hne : rs ≠ []) :
    ∃ s ∈ ss, rs <+: s := by
  obtain ⟨rs, r, rfl⟩ := (List.eq_nil_or_concat' rs).resolve_left hne
  obtain ⟨s, hs, hmem⟩ := hsub (r.1 ++ last [] rs) (by simp [messages_append, messages])
  obtain ⟨pre, q, post, rfl, hmsg⟩ := mem_messages hmem
  obtain ⟨hlinked, hframed'⟩ := hss _ hs
  have hpre := hframed'.of_subset (List.subset_append_left pre _)
  have hrs' := hframed.of_subset (List.subset_append_left rs _)
  obtain ⟨hp, hlast⟩ := payload_eq (hframed.payload r (by simp)) (hframed'.payload q (by simp))
    (hrs'.not_mem_last List.not_mem_nil) (hpre.not_mem_last List.not_mem_nil) hmsg
  rw [linked_append] at hrs hlinked
  have hfree' := hfree _ hs
  rw [messages_append, messages_append] at hfree'
  obtain rfl : rs = pre := eq_of_last_eq hrs.1 hlinked.1 hrs' hpre hlast
    (hfree'.mono (List.subset_append_left _ _) (List.subset_append_left _ _))
  obtain rfl : r = q := Prod.ext hp (by rw [hrs.2.1, hlinked.2.1, hp])
  exact ⟨_, hs, post, by simp⟩

/-- The beginning of one of several lists that is as long as all of them. -/
theorem eq_flatten_of_prefix {β : Type*} {ss : List (List β)} {rs s : List β} (hs : s ∈ ss)
    (hbegin : rs <+: s) (hlength : rs.length = ss.flatten.length) : rs = ss.flatten :=
  (hbegin.sublist.trans (List.sublist_flatten_of_mem hs)).eq_of_length hlength

/-! ### Chains behind each other -/

theorem Framed.left {c : α} {rs rs' : List (Record α)} (h : Framed c (rs ++ rs')) : Framed c rs :=
  h.of_subset (List.subset_append_left rs rs')

theorem Framed.right {c : α} {rs rs' : List (Record α)} (h : Framed c (rs ++ rs')) : Framed c rs' :=
  h.of_subset (List.subset_append_right rs rs')

/-- A framed chain does not go on with one from the empty code. -/
theorem nil_of_restart {c : α} {prev : List α} {rs rs' : List (Record α)} (hprev : prev ≠ [])
    (hc : c ∉ prev) (hrs : Linked mac prev rs) (hrs' : Linked mac [] rs') (hframed : Framed c rs)
    (hframed' : Framed c rs') (hcodes : rs.map Prod.snd = rs'.map Prod.snd)
    (hfree : CollisionFree mac (messages prev rs) (messages [] rs')) : rs' = [] := by
  rcases rs with _ | ⟨r, rs⟩
  · exact (List.map_eq_nil_iff.mp hcodes.symm)
  rcases rs' with _ | ⟨r', rs'⟩
  · rfl
  have hmac : mac (r.1 ++ prev) = mac (r'.1 ++ []) := by
    rw [← hrs.1, ← hrs'.1]
    exact (List.cons.inj hcodes).1
  have hmsg := hfree _ List.mem_cons_self _ List.mem_cons_self hmac
  exact absurd (payload_eq (hframed.payload r List.mem_cons_self)
    (hframed'.payload r' List.mem_cons_self) hc List.not_mem_nil hmsg).2 hprev

/-- **Chains from the empty code behind each other**: a framed chain with their codes is they, and
at most one of them has a record. -/
theorem flatten_of_codes_eq {c : α} : ∀ {prev : List α} {rs : List (Record α)}
    {ss : List (List (Record α))}, c ∉ prev → Linked mac prev rs → (∀ s ∈ ss, Linked mac [] s) →
    Framed c rs → Framed c ss.flatten → rs.map Prod.snd = ss.flatten.map Prod.snd →
    (∀ s ∈ ss, CollisionFree mac (messages prev rs) (messages [] s)) →
    rs = ss.flatten ∧ (prev ≠ [] → ∀ s ∈ ss, s = []) ∧ ss.Pairwise fun s s' => s = [] ∨ s' = []
  | prev, rs, [], _, _, _, _, _, hcodes, _ =>
    ⟨List.map_eq_nil_iff.mp hcodes, fun _ _ hs => absurd hs List.not_mem_nil, List.Pairwise.nil⟩
  | prev, rs, s :: ss, hc, hrs, hss, hframed, hframed', hcodes, hfree => by
    rw [List.flatten_cons, List.map_append] at hcodes
    obtain ⟨rs₁, rs₂, rfl, hcodes₁, hcodes₂⟩ := List.map_eq_append_iff.mp hcodes
    rw [List.flatten_cons] at hframed' ⊢
    rw [List.forall_mem_cons] at hss
    rw [linked_append] at hrs
    rw [messages_append] at hfree
    have hfree₁ : CollisionFree mac (messages prev rs₁) (messages [] s) :=
      (hfree s List.mem_cons_self).mono (List.subset_append_left _ _) (List.Subset.refl _)
    have hfree₂ : ∀ t ∈ ss, CollisionFree mac (messages (last prev rs₁) rs₂) (messages [] t) :=
      fun t ht => (hfree t (List.mem_cons_of_mem _ ht)).mono (List.subset_append_right _ _)
        (List.Subset.refl _)
    obtain ⟨hflat, hnil, hpair⟩ := flatten_of_codes_eq (hframed.left.not_mem_last hc) hrs.2 hss.2
      hframed.right hframed'.right hcodes₂ hfree₂
    by_cases hprev : prev = []
    · subst hprev
      have hs : rs₁ = s := eq_of_codes_eq hrs.1 hss.1 hcodes₁ hfree₁
      refine ⟨by rw [hs, hflat], fun h => absurd rfl h, List.pairwise_cons.mpr ⟨?_, hpair⟩⟩
      intro t ht
      by_cases hne : s = []
      · exact Or.inl hne
      · exact Or.inr (hnil (hs ▸ hframed.left.last_ne_nil (hs ▸ hne) []) t ht)
    · have hs : s = [] := nil_of_restart hprev hc hrs.1 hss.1 hframed.left hframed'.left hcodes₁
        hfree₁
      have hrs₁ : rs₁ = [] := List.map_eq_nil_iff.mp (hcodes₁.trans (by rw [hs, List.map_nil]))
      refine ⟨by rw [hs, hrs₁, hflat], fun _ => ?_, List.pairwise_cons.mpr ⟨?_, hpair⟩⟩
      · rw [hrs₁] at hnil
        exact List.forall_mem_cons.mpr ⟨hs, hnil hprev⟩
      · exact fun _ _ => Or.inl hs

/-- **Chains under several keys**: a chain that has their codes has the key of each of them that has a
record. -/
theorem key_eq_of_codes {κ : Type*} {mac : κ → List α → List α} {key key' : κ} {prev : List α}
    {rs s : List (Record α)} (hrs : Linked (mac key) prev rs) (hs : Linked (mac key') [] s)
    (hcodes : s.map Prod.snd ⊆ rs.map Prod.snd) (hne : s ≠ [])
    (hfree : ∀ m ∈ messages prev rs, ∀ m' ∈ messages [] s, mac key m = mac key' m' → key' = key) :
    key' = key := by
  obtain ⟨r, hr⟩ := List.exists_mem_of_ne_nil s hne
  obtain ⟨m', hm', hcode'⟩ := code_mem_messages hs r hr
  obtain ⟨q, hq, hqr⟩ := List.mem_map.mp (hcodes (List.mem_map_of_mem hr))
  obtain ⟨m, hm, hcode⟩ := code_mem_messages hrs q hq
  exact hfree m hm m' hm' (by rw [← hcode, hqr, hcode'])

/-- Conversely, chains behind each other of which at most one has a record are a chain. -/
theorem linked_flatten : ∀ {ss : List (List (Record α))}, (∀ s ∈ ss, Linked mac [] s) →
    (ss.Pairwise fun s s' => s = [] ∨ s' = []) → Linked mac [] ss.flatten
  | [], _, _ => trivial
  | s :: ss, h, hpair => by
    rw [List.forall_mem_cons] at h
    rw [List.pairwise_cons] at hpair
    rw [List.flatten_cons]
    by_cases hs : s = []
    · rw [hs, List.nil_append]
      exact linked_flatten h.2 hpair.2
    · have hnil : ss.flatten = [] :=
        List.flatten_eq_nil_iff.mpr fun t ht => (hpair.1 t ht).resolve_left hs
      rw [hnil, List.append_nil]
      exact h.1

/-! ### Chains with gaps -/

/-- **What is left of a framed chain is a chain only if nothing is left behind a gap**: a chain with the
codes of the records that are kept is these records, and none is kept behind one that is not. -/
theorem pairwise_of_kept {β : Type*} {c : α} {g : β → Record α} {kept : β → Bool} {l : List β}
    {rs : List (Record α)} (hl : Linked mac [] (l.map g)) (hrs : Linked mac [] rs)
    (hframed : Framed c (l.map g)) (hframed' : Framed c rs)
    (hcodes : rs.map Prod.snd = ((l.filter kept).map g).map Prod.snd)
    (hfree : CollisionFree mac (messages [] rs) (messages [] (l.map g))) :
    rs = (l.filter kept).map g ∧ l.Pairwise fun a b => kept a = false → kept b = false := by
  induction l using List.reverseRecOn generalizing rs with
  | nil => exact ⟨List.map_eq_nil_iff.mp hcodes, List.Pairwise.nil⟩
  | append_singleton l b ih =>
    rw [List.map_append] at hl hframed hfree
    rw [linked_append] at hl
    rw [messages_append] at hfree
    rw [List.filter_append, List.map_append, List.map_append] at hcodes
    have hfree' : CollisionFree mac (messages [] rs) (messages [] (l.map g)) :=
      hfree.mono (List.Subset.refl _) (List.subset_append_left _ _)
    by_cases hb : kept b = true
    · rw [List.filter_singleton, hb] at hcodes
      obtain ⟨rs, qs, rfl, hcodes₁, hq⟩ := List.map_eq_append_iff.mp hcodes
      obtain ⟨q, rfl, hcode⟩ := List.map_eq_singleton_iff.mp hq
      rw [linked_append] at hrs
      rw [messages_append] at hfree hfree'
      obtain ⟨rfl, hpairwise⟩ := ih hl.1 hrs.1 hframed.left hframed'.left hcodes₁
        (hfree'.mono (List.subset_append_left _ _) (List.Subset.refl _))
      -- The message of `b` is the one that is checked, so the codes before it are the same.
      have hmac : mac (q.1 ++ last [] ((l.filter kept).map g)) = mac ((g b).1 ++ last [] (l.map g)) := by
        rw [← hrs.2.1, ← hl.2.1, hcode]
      have hmsg := hfree _ (List.mem_append_right _ List.mem_cons_self) _
        (List.mem_append_right _ List.mem_cons_self) hmac
      obtain ⟨hpayload, hlast⟩ := payload_eq (hframed'.payload q (by simp))
        (hframed.payload (g b) (by simp)) (hframed'.left.not_mem_last List.not_mem_nil)
        (hframed.left.not_mem_last List.not_mem_nil) hmsg
      have hall : (l.filter kept).map g = l.map g := eq_of_last_eq hrs.1 hl.1 hframed'.left
        hframed.left hlast (hfree'.mono (List.subset_append_left _ _) (List.Subset.refl _))
      have hlen : (l.filter kept).length = l.length := by
        rw [← List.length_map g, hall, List.length_map]
      have hkept : ∀ a ∈ l, kept a = true := List.length_filter_eq_length_iff.mp hlen
      refine ⟨?_, List.pairwise_append.mpr ⟨hpairwise, List.pairwise_singleton _ _, ?_⟩⟩
      · rw [List.filter_append, List.filter_singleton, hb, List.map_append,
          show q = g b from Prod.ext hpayload hcode]
        rfl
      · intro a ha _ _ hgap
        exact absurd (hkept a ha) (by rw [hgap]; decide)
    · rw [Bool.not_eq_true] at hb
      rw [List.filter_singleton, hb] at hcodes
      obtain ⟨hrs', hpairwise⟩ := ih hl.1 hrs hframed.left hframed'
        (hcodes.trans (List.append_nil _)) hfree'
      refine ⟨?_, List.pairwise_append.mpr ⟨hpairwise, List.pairwise_singleton _ _, ?_⟩⟩
      · rw [List.filter_append, List.filter_singleton, hb, hrs']
        exact congrArg (List.map g) (List.append_nil _).symm
      · intro a _ b' hb' _
        rwa [List.mem_singleton.mp hb']

/-- Conversely, a chain cut off behind its beginning is a chain. -/
theorem linked_kept {β : Type*} {g : β → Record α} {kept : β → Bool} : ∀ {prev : List α} {l : List β},
    Linked mac prev (l.map g) → (l.Pairwise fun a b => kept a = false → kept b = false) →
    Linked mac prev ((l.filter kept).map g)
  | _, [], _, _ => trivial
  | _, a :: l, hl, hpairwise => by
    rw [List.pairwise_cons] at hpairwise
    cases ha : kept a with
    | true =>
      rw [List.filter_cons_of_pos ha]
      exact ⟨hl.1, linked_kept hl.2 hpairwise.2⟩
    | false =>
      have hnil : l.filter kept = [] := List.filter_eq_nil_iff.mpr fun b hb => by
        rw [hpairwise.1 b hb ha]
        decide
      rw [List.filter_cons_of_neg (by rw [ha]; decide), hnil]
      trivial

end VantaCore.Lib.MacChain
