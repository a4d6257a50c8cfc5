import CryptoPrimitives.Sponge.Emulated

/-!
# Sized squeezes in and out of a circuit

The gadget of the Poseidon sponge always squeezes bits; so does the native sponge
(`agree_iff_defaultImpl`), but for elements of its own field that are all full.
`sizedSqueezesAgree_iff` says for which fields, modes and sizes the two agree.
-/

namespace CryptoPrimitives.Sponge

open Except (bind_eq_ok)
open PrimeField (modulusBitSize)
open Synthesis (Computes)

section

variable {p q : Nat} {V : Type} [FpVar p V]

/-- The gadget returns elements of the values that the sponge returns, and both end in
the same state and mode. -/
def SizedSqueezesAgree (E : EmulatedFp p q) (config : PoseidonConfig (ZMod p)) (self : DuplexSponge V)
    (sizes : List FieldElementSize) : Prop :=
  ∃ elements self',
    PoseidonSponge.squeezeFieldElementsWithSizes q config.duplex self.value sizes = .ok (elements, self') ∧
    Computes (PoseidonSpongeVar.squeezeEmulatedFieldElementsWithSizes E (PoseidonSpongeVar.duplex config) self
      sizes) fun r => r.1.1.map (EmulatedFpVar.value E) = elements ∧ r.2.value = self'

/-- The fields differ, or an element is truncated, or nothing is squeezed from within a
block, or the field has two elements. -/
def SizesAgree (p q rate : Nat) (mode : DuplexSpongeMode) (sizes : List FieldElementSize) : Prop :=
  p ≠ q ∨ (∃ size ∈ sizes, size ≠ .full) ∨ (sizes = [] ∧ ∃ i ≠ rate, mode = .squeezing i) ∨
    (sizes ≠ [] ∧ p = 2)

variable [LawfulFpVar p V] [Fact p.Prime] [Fact q.Prime] {E : EmulatedFp p q} {config : PoseidonConfig (ZMod p)}

/-- The gadget agrees with the default implementation of the sponge. -/
theorem agree_iff_defaultImpl (hE : E.Lawful) (hconfig : config.Accepted) (hr : 1 ≤ config.rate)
    {self : DuplexSponge V} (hs : self.value.Valid config.duplex) {sizes : List FieldElementSize}
    (hsizes : ∀ size ∈ sizes, ∃ n, size.numBits q = .ok n) :
    SizedSqueezesAgree E config self sizes ↔
      PoseidonSponge.squeezeFieldElementsWithSizes q config.duplex self.value sizes =
        squeezeFieldElementsWithSizesDefaultImpl q (PoseidonSponge.squeezeBits config.duplex) self.value sizes := by
  obtain ⟨elements, self', hdefault, hgadget⟩ : ∃ elements self',
      squeezeFieldElementsWithSizesDefaultImpl q (PoseidonSponge.squeezeBits config.duplex) self.value sizes =
        .ok (elements, self') ∧
      Computes (PoseidonSpongeVar.squeezeEmulatedFieldElementsWithSizes E (PoseidonSpongeVar.duplex config) self
        sizes) fun r => r.1.1.map (EmulatedFpVar.value E) = elements ∧ r.2.value = self' := by
    by_cases hne : sizes = []
    · subst hne
      exact ⟨[], self.value, rfl, Computes.pure ⟨rfl, rfl⟩⟩
    · obtain ⟨ns, hns⟩ := Except.exists_mapM hsizes
      rw [Except.mapM_eq_ok] at hns
      obtain ⟨bits, self', hbits, hlen⟩ := PoseidonSponge.exists_squeezeBits (PoseidonConfig.duplex_total hconfig hr)
        hr hs ns.sum
      exact ⟨_, self', defaultImpl_eq hne hns hbits hlen,
        squeezeEmulatedFieldElementsWithSizes_computes hE (PoseidonSpongeVar.duplex_mirrors config) hne hns hbits
          hlen⟩
  rw [hdefault]
  constructor
  · rintro ⟨elements', self'', hnative, hgadget'⟩
    obtain ⟨r, ⟨rfl, rfl⟩, rfl, rfl⟩ := hgadget.exists_and hgadget'
    exact hnative
  · exact fun hnative => ⟨elements, self', hnative, hgadget⟩

end

/-! ## The native route -/

/-- Parameters of no rounds, whose permutation changes nothing. -/
def PoseidonConfig.roundless (F : Type) [CommRing F] (rate capacity : Nat) : PoseidonConfig F where
  fullRounds := 0
  partialRounds := 0
  alpha := 1
  ark := []
  mds := List.replicate (rate + capacity) (List.replicate (rate + capacity) 0)
  rate := rate
  capacity := capacity

theorem PoseidonConfig.roundless_accepted (F : Type) [CommRing F] (rate capacity : Nat) :
    (roundless F rate capacity).Accepted where
  length_ark := rfl
  width_ark := nofun
  length_mds := List.length_replicate
  width_mds item h := by
    rw [List.eq_of_mem_replicate h]
    exact List.length_replicate

theorem PoseidonConfig.roundless_permute {F : Type} [CommRing F] (rate capacity : Nat) (state : List F) :
    (roundless F rate capacity).permute state = .ok state := by
  simp [permute, roundless]

namespace PoseidonSponge

variable {p : Nat} {D : Duplex Outcome (ZMod p)} {self : DuplexSponge (ZMod p)} {sizes : List FieldElementSize}

theorem squeezeFieldElementsWithSizes_of_ne {q : Nat} (h : p ≠ q) :
    squeezeFieldElementsWithSizes q D self sizes =
      squeezeFieldElementsWithSizesDefaultImpl q (squeezeBits D) self sizes := if_neg h

variable [hp : Fact p.Prime]

theorem squeezeFieldElementsWithSizes_of_truncated (h : ∃ size ∈ sizes, size ≠ .full) :
    squeezeFieldElementsWithSizes p D self sizes =
      squeezeFieldElementsWithSizesDefaultImpl p (squeezeBits D) self sizes := by
  obtain ⟨size, hsize, hne⟩ := h
  rw [squeezeFieldElementsWithSizes_self, squeezeNativeFieldElementsWithSizes,
    if_neg fun hfull => hne (hfull size hsize)]

/-- Squeezing nothing turns to squeezing, past a used up block. -/
theorem squeezeFieldElementsWithSizes_nil (hD : D.Total) (hr : 0 < D.rate) (hs : self.Valid D) :
    squeezeFieldElementsWithSizes p D self [] =
        squeezeFieldElementsWithSizesDefaultImpl p (squeezeBits D) self [] ↔
      ∃ i ≠ D.rate, self.mode = .squeezing i := by
  have hdefault : squeezeFieldElementsWithSizesDefaultImpl p (squeezeBits D) self [] = .ok ([], self) := rfl
  have hnative : squeezeFieldElementsWithSizes p D self [] =
      D.turn (self.squeezeCursor D) >>= fun c => .ok (squeezed ([], c)) := by
    rw [squeezeFieldElementsWithSizes_self, squeezeNativeFieldElementsWithSizes, if_pos (List.forall_mem_nil _),
      List.length_nil, squeezeNativeFieldElements_eq hD.keepsWidth hr hs]
    rfl
  obtain ⟨state, mode⟩ := self
  have hturned : D.turn ⟨state, D.rate⟩ >>= (fun c => .ok (squeezed ([], c))) ≠
      (.ok ([], ⟨state, mode⟩) : Outcome (List (ZMod p) × _)) ∨ mode = .squeezing 0 := by
    rw [Duplex.turn_rate, or_iff_not_imp_left, not_not, bind_assoc, bind_eq_ok]
    rintro ⟨block, -, h⟩
    exact (congrArg (fun r => r.2.mode) (Except.ok.inj h)).symm
  rw [hdefault, hnative]
  cases mode with
  | absorbing i => exact iff_of_false (hturned.resolve_right nofun) nofun
  | squeezing i =>
    rw [DuplexSponge.squeezeCursor]
    by_cases hi : i = D.rate
    · subst hi
      refine iff_of_false (hturned.resolve_right fun h => hr.ne' (DuplexSpongeMode.squeezing.inj h)) ?_
      rintro ⟨i, hne, h⟩
      exact hne (DuplexSpongeMode.squeezing.inj h).symm
    · rw [Duplex.turn_of_ne hi]
      exact iff_of_true rfl ⟨i, hi, rfl⟩

/-- Full sizes: whole elements, and by default what the bits of a window leave of them. -/
theorem exists_squeeze_full (hD : D.Total) (hr : 0 < D.rate) (hs : self.Valid D) (hne : sizes ≠ [])
    (hfull : ∀ size ∈ sizes, size = .full) :
    ∃ elements self', elements.length = sizes.length ∧
      squeezeNativeFieldElements D self sizes.length = .ok (elements, self') ∧
      squeezeFieldElementsWithSizes p D self sizes = .ok (elements, self') ∧
      squeezeFieldElementsWithSizesDefaultImpl p (squeezeBits D) self sizes =
        .ok (elements.map fun x => ((x.val % 2 ^ (modulusBitSize p - 1) : Nat) : ZMod p), self') := by
  obtain ⟨elements, self', h, hlen⟩ := exists_squeezeNativeFieldElements hD hr hs sizes.length
  have hdefault := defaultImpl_full hD hr hs (fun h => hne (List.length_eq_zero_iff.mp h)) h
  rw [← List.eq_replicate_length.mpr hfull] at hdefault
  refine ⟨elements, self', hlen, h, ?_, hdefault⟩
  rw [squeezeFieldElementsWithSizes_self, squeezeNativeFieldElementsWithSizes, if_pos hfull, h]

theorem squeezeFieldElementsWithSizes_of_two (hD : D.Total) (hr : 0 < D.rate) (hs : self.Valid D) (htwo : p = 2)
    (hne : sizes ≠ []) (hfull : ∀ size ∈ sizes, size = .full) :
    squeezeFieldElementsWithSizes p D self sizes =
      squeezeFieldElementsWithSizesDefaultImpl p (squeezeBits D) self sizes := by
  obtain ⟨elements, self', -, -, hsized, hdefault⟩ := exists_squeeze_full hD hr hs hne hfull
  rw [hsized, hdefault]
  refine congrArg (fun elements => Except.ok (elements, self')) ?_
  refine (List.map_id _).symm.trans (List.map_congr_left fun x _ => ?_)
  have hlt : x.val < 2 ^ (modulusBitSize p - 1) := by
    subst htwo
    exact x.val_lt
  rw [Nat.mod_eq_of_lt hlt, ZMod.natCast_zmod_val]
  rfl

omit hp in
/-- What the permutation keeps of the entries of a state, all elements squeezed have. -/
theorem forall_squeezeNativeFieldElements {P : ZMod p → Prop} (hD : D.Total) (hr : 0 < D.rate) (hs : self.Valid D)
    (hP : ∀ block block', D.permute block = .ok block' → (∀ x ∈ block, P x) → ∀ x ∈ block', P x)
    (hstate : ∀ x ∈ self.state, P x) {n : Nat} {elements : List (ZMod p)} {self' : DuplexSponge (ZMod p)}
    (h : squeezeNativeFieldElements D self n = .ok (elements, self')) : ∀ x ∈ elements, P x := by
  rw [squeezeNativeFieldElements_eq hD.keepsWidth hr hs, bind_eq_ok] at h
  obtain ⟨c, hturn, hmany⟩ := h
  obtain ⟨⟨xs, c'⟩, hread, hxs⟩ := Except.map_eq_ok.mp hmany
  obtain rfl : xs = elements := congrArg Prod.fst hxs
  have hblock : (self.squeezeCursor D).block = self.state := by
    rw [DuplexSponge.squeezeCursor]
    split <;> rfl
  exact Duplex.forall_squeezeMany hP (Duplex.forall_turn hP (hblock ▸ hstate) hturn) hread

/-- The largest element of a field of odd order has a bit that no window has. -/
theorem two_pow_le_val_neg_one (hodd : p ≠ 2) : 2 ^ (modulusBitSize p - 1) ≤ (-1 : ZMod p).val := by
  have hle := PrimeField.two_pow_le hp.out.ne_zero
  have hne : 2 ^ (modulusBitSize p - 1) ≠ p := fun h => by
    have hdvd : 2 ∣ p := h ▸ dvd_pow_self 2 (Nat.one_le_iff_ne_zero.mp (one_le_usableBits p))
    exact hodd ((Nat.prime_dvd_prime_iff_eq Nat.prime_two hp.out).mp hdvd).symm
  have : Fact (1 < p) := ⟨hp.out.one_lt⟩
  rw [ZMod.neg_val, if_neg one_ne_zero, ZMod.val_one]
  omega

/-- Full elements are not the ones of windows, where some are as large as they can be. -/
theorem squeezeFieldElementsWithSizes_ne (hD : D.Total) (hr : 0 < D.rate) (hs : self.Valid D)
    (hpermute : ∀ block block', D.permute block = .ok block' → (∀ x ∈ block, x = -1) → ∀ x ∈ block', x = -1)
    (hstate : ∀ x ∈ self.state, x = -1) (hodd : p ≠ 2) (hne : sizes ≠ []) (hfull : ∀ size ∈ sizes, size = .full) :
    squeezeFieldElementsWithSizes p D self sizes ≠
      squeezeFieldElementsWithSizesDefaultImpl p (squeezeBits D) self sizes := by
  obtain ⟨elements, self', hlen, h, hsized, hdefault⟩ := exists_squeeze_full hD hr hs hne hfull
  rw [hsized, hdefault]
  intro heq
  have hmap : elements = elements.map fun x => ((x.val % 2 ^ (modulusBitSize p - 1) : Nat) : ZMod p) :=
    congrArg Prod.fst (Except.ok.inj heq)
  have hall := forall_squeezeNativeFieldElements hD hr hs hpermute hstate h
  obtain ⟨x, hx⟩ := List.exists_mem_of_ne_nil elements fun h => by
    rw [h, List.length_nil] at hlen
    exact hne (List.length_eq_zero_iff.mp hlen.symm)
  obtain ⟨y, hy, hyx⟩ := List.mem_map.mp (hmap ▸ hx)
  rw [hall x hx, hall y hy] at hyx
  have hmod := congrArg ZMod.val hyx
  have hlt := Nat.mod_lt (-1 : ZMod p).val (Nat.two_pow_pos (modulusBitSize p - 1))
  have hle := two_pow_le_val_neg_one hodd
  rw [ZMod.val_natCast_of_lt ((Nat.mod_le _ _).trans_lt (ZMod.val_lt _))] at hmod
  omega

end PoseidonSponge

/-! ## The two sponges -/

section

variable {p q : Nat} {V : Type} [FpVar p V] [LawfulFpVar p V]

/-- Over the parameters of one rate and capacity, and the states in one mode, the sized
squeezes of the sponge and its gadget agree exactly where the fields, the mode and the
sizes lead the sponge to squeeze bits, or to elements that its bits determine. -/
theorem sizedSqueezesAgree_iff [hp : Fact p.Prime] [hq : Fact q.Prime] (E : EmulatedFp p q) (hE : E.Lawful)
    (rate capacity : Nat) (mode : DuplexSpongeMode) (sizes : List FieldElementSize) (hrate : 1 ≤ rate)
    (hmode : mode.index ≤ rate) (hsizes : ∀ size ∈ sizes, ∃ n, size.numBits q = .ok n) :
    (∀ config : PoseidonConfig (ZMod p), config.Accepted → config.rate = rate → config.capacity = capacity →
      ∀ self : DuplexSponge V, self.value.Valid config.duplex → self.mode = mode →
        SizedSqueezesAgree E config self sizes) ↔ SizesAgree p q rate mode sizes := by
  constructor
  · intro h
    by_contra hn
    simp only [SizesAgree, not_or, not_and, not_exists, not_not] at hn
    obtain ⟨rfl, hfull, hnil, hodd⟩ := hn
    have hconfig := PoseidonConfig.roundless_accepted (ZMod p) rate capacity
    have hD := PoseidonConfig.duplex_total hconfig hrate
    have hvalue : (⟨List.replicate (capacity + rate) (FpVar.constant (-1)), mode⟩ : DuplexSponge V).value =
        ⟨List.replicate (capacity + rate) (-1), mode⟩ := by
      rw [DuplexSponge.value, DuplexSponge.map, List.map_replicate, LawfulFpVar.value_constant]
    have hvalid : (⟨List.replicate (capacity + rate) (-1), mode⟩ : DuplexSponge (ZMod p)).Valid
        (PoseidonConfig.roundless (ZMod p) rate capacity).duplex := ⟨List.length_replicate, hmode⟩
    have hagree := h _ hconfig rfl rfl ⟨List.replicate (capacity + rate) (FpVar.constant (-1)), mode⟩
      (hvalue ▸ hvalid) rfl
    rw [agree_iff_defaultImpl hE hconfig hrate (hvalue ▸ hvalid) hsizes, hvalue] at hagree
    by_cases hne : sizes = []
    · subst hne
      obtain ⟨i, hi, hmode⟩ := (PoseidonSponge.squeezeFieldElementsWithSizes_nil hD hrate hvalid).mp hagree
      exact hnil rfl i hi hmode
    · refine PoseidonSponge.squeezeFieldElementsWithSizes_ne hD hrate hvalid (fun block block' hpermute hb => ?_)
        (fun x hx => List.eq_of_mem_replicate hx) (hodd hne) hne hfull hagree
      rwa [← Except.ok.inj ((PoseidonConfig.roundless_permute rate capacity block).symm.trans hpermute)]
  · intro h config hconfig hr hc self hs hm
    subst hr hm
    rw [agree_iff_defaultImpl hE hconfig hrate hs hsizes]
    have hD := PoseidonConfig.duplex_total hconfig hrate
    rcases eq_or_ne p q with rfl | hpq
    · by_cases htruncated : ∃ size ∈ sizes, size ≠ .full
      · exact PoseidonSponge.squeezeFieldElementsWithSizes_of_truncated htruncated
      rcases (h.resolve_left (not_not.mpr rfl)).resolve_left htruncated with ⟨rfl, hi⟩ | ⟨hne, htwo⟩
      · exact (PoseidonSponge.squeezeFieldElementsWithSizes_nil hD hrate hs).mpr hi
      · exact PoseidonSponge.squeezeFieldElementsWithSizes_of_two hD hrate hs htwo hne (by simpa using htruncated)
    · exact PoseidonSponge.squeezeFieldElementsWithSizes_of_ne hpq

theorem sizedSqueezesAgree_iff_seven :
    (∀ config : PoseidonConfig (ZMod 131071), config.Accepted → config.rate = 2 → config.capacity = 1 →
      ∀ self : DuplexSponge (Assigned (ZMod 131071)), self.value.Valid config.duplex → self.mode = .absorbing 1 →
        SizedSqueezesAgree (EmulatedFp.positional 131071 7 3 1) config self [.full, .truncated 2]) ↔
      SizesAgree 131071 7 2 (.absorbing 1) [.full, .truncated 2] := by
  have hp : Fact (Nat.Prime 131071) := ⟨prime_131071⟩
  have hq : Fact (Nat.Prime 7) := ⟨by decide⟩
  have hE : (EmulatedFp.positional 131071 7 3 1).Lawful := EmulatedFp.positional_lawful (by decide) (by decide)
  have hsizes : ∀ size ∈ [FieldElementSize.full, .truncated 2], ∃ n, size.numBits 7 = .ok n :=
    List.forall_mem_cons.mpr ⟨⟨2, rfl⟩, List.forall_mem_singleton.mpr ⟨2, rfl⟩⟩
  exact sizedSqueezesAgree_iff _ hE 2 1 (.absorbing 1) _ (by decide) (by decide) hsizes

/-- Over a field of 17 bits. -/
abbrev mersenneConfig : PoseidonConfig (ZMod 131071) := smallConfigOf 131071

/-- A sponge that has absorbed 11 returns 73909 for one full element, and its gadget the 16 low
bits of it. -/
theorem sizedSqueezes_not_agree :
    ∃ s, PoseidonSponge.absorb mersenneConfig.duplex (.new mersenneConfig.duplex) [11] = .ok s ∧
      ∀ self : DuplexSponge (Assigned (ZMod 131071)), self.value = s →
        ¬ SizedSqueezesAgree (EmulatedFp.positional 131071 131071 17 1) mersenneConfig self [.full] := by
  refine ⟨⟨[0, 11, 0], .absorbing 1⟩, by decide +kernel, fun self hself => ?_⟩
  have hp : Fact (Nat.Prime 131071) := ⟨prime_131071⟩
  have hE : (EmulatedFp.positional 131071 131071 17 1).Lawful :=
    EmulatedFp.positional_lawful (by decide +kernel) (by decide)
  have hvalid : self.value.Valid mersenneConfig.duplex := hself ▸ ⟨rfl, by decide⟩
  have hsizes : ∀ size ∈ [FieldElementSize.full], ∃ n, size.numBits 131071 = .ok n :=
    List.forall_mem_singleton.mpr ⟨16, by decide +kernel⟩
  rw [agree_iff_defaultImpl hE (smallConfigOf_accepted 131071) (by decide) hvalid hsizes, hself]
  intro h
  have h := congrArg (Except.map Prod.fst) h
  revert h
  decide +kernel

end

end CryptoPrimitives.Sponge
