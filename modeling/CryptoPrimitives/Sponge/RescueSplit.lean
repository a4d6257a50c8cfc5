import CryptoPrimitives.Sponge.Rescue
import Mathlib.Algebra.Field.ZMod

/-!
# Splitting a squeeze of the Rescue sponge

`squeeze_native_field_elements(a)` and then `(b)` against `(a + b)`.
`RescueSponge.squeezeTwice_eq_iff` says when the two agree: when neither of the
requests, nor the single one, is for `rate` elements from inside a block.
`RescueSponge.squeezeTwice_ne` is one new sponge on which they do not.
-/

namespace CryptoPrimitives.Sponge

open Duplex (Cursor)
open Except (bind_eq_ok)

namespace RescueSponge

variable {V : Type} {D : Duplex Outcome V}

theorem squeezeNativeFieldElements_eq (self : DuplexSponge V) (n : Nat) :
    squeezeNativeFieldElements D self n =
      D.turn (self.squeezeCursor D) >>= fun c => squeezeInternal D c.index n c.block := by
  obtain ⟨state, mode⟩ := self
  have hturned : D.turn ⟨state, D.rate⟩ >>= (fun c => squeezeInternal D c.index n c.block) =
      D.permute state >>= fun state => squeezeInternal D 0 n state := by
    rw [Duplex.turn_rate, bind_assoc]
    rfl
  cases mode with
  | absorbing i => exact hturned.symm
  | squeezing i =>
    by_cases hi : i = D.rate
    · simp only [squeezeNativeFieldElements, hi, if_pos, DuplexSponge.squeezeCursor]
      exact hturned.symm
    · simp only [squeezeNativeFieldElements, hi, if_false, DuplexSponge.squeezeCursor]
      rw [Duplex.turn_of_ne hi]
      rfl

/-! ## Split requests -/

/-- The sponges that calls of `absorb` and `squeeze_native_field_elements` lead to. -/
inductive Reachable [Add V] [Zero V] (D : Duplex Outcome V) : DuplexSponge V → Prop where
  | new : Reachable D (.new D)
  | absorb {s s' : DuplexSponge V} {elems : List V} : Reachable D s → absorb D s elems = .ok s' →
      Reachable D s'
  | squeeze {s s' : DuplexSponge V} {n : Nat} {output : List V} : Reachable D s →
      squeezeNativeFieldElements D s n = .ok (output, s') → Reachable D s'

/-- `squeeze_native_field_elements(a)` and then `(b)`. -/
def squeezeTwice (D : Duplex Outcome V) (self : DuplexSponge V) (a b : Nat) :
    Outcome (List V × DuplexSponge V) := do
  let (first, self) ← squeezeNativeFieldElements D self a
  let (second, self) ← squeezeNativeFieldElements D self b
  pure (first ++ second, self)

/-- The position in the block at which the next squeeze starts. -/
def start (rate : Nat) : DuplexSpongeMode → Nat
  | .absorbing _ => 0
  | .squeezing nextSqueezeIndex => if nextSqueezeIndex = rate then 0 else nextSqueezeIndex

/-- A request for `n` elements from position `i` omits a permutation. -/
def Skips (rate i n : Nat) : Prop := i ≠ 0 ∧ n = rate

instance (rate i n : Nat) : Decidable (Skips rate i n) := inferInstanceAs (Decidable (_ ∧ _))

/-- Nothing is squeezed first, or no request omits a permutation. -/
def SplitsAt (rate : Nat) (mode : DuplexSpongeMode) (a b : Nat) : Prop :=
  a = 0 ∨ ¬ Skips rate (start rate mode) a ∧ ¬ Skips rate ((start rate mode + a) % rate) b ∧
    ¬ Skips rate (start rate mode) (a + b)

instance (rate : Nat) (mode : DuplexSpongeMode) (a b : Nat) : Decidable (SplitsAt rate mode a b) :=
  inferInstanceAs (Decidable (_ ∨ _))

theorem turn_squeezeCursor (hD : D.KeepsWidth) (hr : 0 < D.rate) {self : DuplexSponge V} (hs : self.Valid D)
    {c : Cursor V} (h : D.turn (self.squeezeCursor D) = .ok c) :
    c.Valid D ∧ c.index < D.rate ∧ c.index = start D.rate self.mode := by
  obtain ⟨hl, hlt, hi⟩ := Duplex.turn_valid hD hr hs.squeezeCursor h
  refine ⟨⟨hl, hlt.le⟩, hlt, hi.trans ?_⟩
  obtain ⟨state, mode⟩ := self
  cases mode with
  | absorbing i => exact Nat.mod_self D.rate
  | squeezing i =>
    have hle : i ≤ D.rate := hs.index_le
    by_cases hi : i = D.rate
    · rw [DuplexSponge.squeezeCursor, start, if_pos hi, hi, Nat.mod_self]
    · rw [DuplexSponge.squeezeCursor, start, if_neg hi]
      exact Nat.mod_eq_of_lt (lt_of_le_of_ne hle hi)

/-- A request that omits no permutation reads the outputs one by one. -/
theorem squeezeNativeFieldElements_of_not_skips (hD : D.KeepsWidth) (hr : 0 < D.rate) {self : DuplexSponge V}
    {c : Cursor V} (hturn : D.turn (self.squeezeCursor D) = .ok c) (hc : c.Valid D) (hlt : c.index < D.rate) {n : Nat}
    (hn : ¬ Skips D.rate c.index n) : squeezeNativeFieldElements D self n = squeezed <$> D.squeezeMany n c := by
  rw [Skips, not_and_or, not_not] at hn
  rw [squeezeNativeFieldElements_eq, hturn, Except.ok_bind, squeezeInternal_eq hD hr hc hlt hn]

/-- One that does reads the block again. -/
theorem squeezeNativeFieldElements_of_skips {self : DuplexSponge V} {c : Cursor V}
    (hturn : D.turn (self.squeezeCursor D) = .ok c) (hc : c.Valid D) {n : Nat} (hn : Skips D.rate c.index n) :
    squeezeNativeFieldElements D self n = .ok (squeezed (repeated D c, c)) := by
  rw [squeezeNativeFieldElements_eq, hturn, Except.ok_bind, hn.2, squeezeInternal_rate hc hn.1]

theorem squeezeTwice_of_eq_ok {self : DuplexSponge V} {a b : Nat} {r₁ r₂ : List V × DuplexSponge V}
    (h₁ : squeezeNativeFieldElements D self a = .ok r₁) (h₂ : squeezeNativeFieldElements D r₁.2 b = .ok r₂) :
    squeezeTwice D self a b = .ok (r₁.1 ++ r₂.1, r₂.2) := by
  obtain ⟨first, self₁⟩ := r₁
  rw [squeezeTwice, h₁, Except.ok_bind]
  exact congrArg (· >>= _) h₂

/-- Two requests that omit no permutation read the outputs one by one. -/
theorem squeezeTwice_of_not_skips (hD : D.KeepsWidth) (hr : 0 < D.rate) {self : DuplexSponge V} {c : Cursor V}
    (hturn : D.turn (self.squeezeCursor D) = .ok c) (hc : c.Valid D) (hlt : c.index < D.rate) {a b : Nat}
    (hb : 1 ≤ b) (hfirst : ¬ Skips D.rate c.index a) (hsecond : ¬ Skips D.rate ((c.index + a) % D.rate) b) :
    squeezeTwice D self a b = squeezed <$> D.squeezeMany (a + b) c := by
  have hone := squeezeNativeFieldElements_of_not_skips hD hr hturn hc hlt hfirst
  rw [Duplex.squeezeMany_add]
  cases hmany : D.squeezeMany a c with
  | error e => rw [squeezeTwice, hone, hmany]; rfl
  | ok r =>
    obtain ⟨first, c'⟩ := r
    obtain ⟨hc', -, hi'⟩ := Duplex.squeezeMany_valid hD hr hc hmany
    rw [hmany] at hone
    rw [Except.ok_bind, Duplex.squeezeMany_turn hr _ hb, squeezeTwice, hone, Except.map_ok, Except.ok_bind]
    cases hturn' : D.turn c' with
    | error e =>
      have hagain := squeezeNativeFieldElements_eq (D := D) (squeezed (first, c')).2 b
      rw [show (squeezed (first, c')).2.squeezeCursor D = c' from rfl, hturn'] at hagain
      exact congrArg (· >>= _) hagain
    | ok c'' =>
      obtain ⟨hl'', hlt'', hi''⟩ := Duplex.turn_valid hD hr hc' hturn'
      rw [← hi', ← hi''] at hsecond
      have hcursor : D.turn ((squeezed (first, c')).2.squeezeCursor D) = .ok c'' := hturn'
      have hagain := squeezeNativeFieldElements_of_not_skips hD hr hcursor ⟨hl'', hlt''.le⟩ hlt'' hsecond
      refine (congrArg (· >>= _) hagain).trans ?_
      rw [Except.ok_bind]
      cases D.squeezeMany b c'' with
      | error e => rfl
      | ok r => rfl

theorem squeezeTwice_eq (hD : D.KeepsWidth) (hr : 0 < D.rate) {self : DuplexSponge V} (hs : self.Valid D)
    {a b : Nat} (hb : 1 ≤ b) (h : SplitsAt D.rate self.mode a b) :
    squeezeTwice D self a b = squeezeNativeFieldElements D self (a + b) := by
  cases hturn : D.turn (self.squeezeCursor D) with
  | error e => rw [squeezeTwice, squeezeNativeFieldElements_eq, squeezeNativeFieldElements_eq, hturn]; rfl
  | ok c =>
    obtain ⟨hc, hlt, hi⟩ := turn_squeezeCursor hD hr hs hturn
    rw [SplitsAt, ← hi] at h
    by_cases ha : a = 0
    · -- the second request starts where the only one would
      subst ha
      have hzero := squeezeNativeFieldElements_of_not_skips hD hr hturn hc hlt (n := 0) fun h => hr.ne h.2
      have hagain := squeezeNativeFieldElements_eq (D := D) (squeezed ([], c)).2 b
      rw [show (squeezed ([], c)).2.squeezeCursor D = c from rfl, Duplex.turn_of_ne hlt.ne, pure_bind] at hagain
      rw [squeezeTwice, hzero, squeezeNativeFieldElements_eq self, hturn, Except.ok_bind, Nat.zero_add]
      refine (congrArg (· >>= _) hagain).trans ?_
      cases squeezeInternal D c.index b c.block with
      | error e => rfl
      | ok r => rfl
    · obtain ⟨hfirst, hsecond, hboth⟩ := h.resolve_left ha
      rw [squeezeTwice_of_not_skips hD hr hturn hc hlt hb hfirst hsecond,
        squeezeNativeFieldElements_of_not_skips hD hr hturn hc hlt hboth]

end RescueSponge

/-- Parameters whose permutation adds one to every entry. -/
def RescueConfig.incrementing (F : Type) [CommRing F] (rate capacity : Nat) : RescueConfig F where
  rounds := 0
  alpha := 1
  alphaInv := 1
  arc := [List.replicate (rate + capacity) 1]
  mds := List.replicate (rate + capacity) (List.replicate (rate + capacity) 0)
  rate := rate
  capacity := capacity

section

variable {F : Type} [CommRing F] {rate capacity : Nat}

theorem RescueConfig.incrementing_permute {state : List F} (h : state.length = capacity + rate) :
    (incrementing F rate capacity).permute state = .ok (state.map (· + 1)) := by
  have hkeys : ∀ entry ∈ state.zipIdx, (do
      let keys ← index [List.replicate (rate + capacity) (1 : F)] 0
      let key ← index keys entry.2
      pure (entry.1 + key) : Outcome F) = .ok (entry.1 + 1) := fun entry hentry => by
    have hlt : entry.2 < (List.replicate (rate + capacity) (1 : F)).length := by
      have := lt_of_mem_zipIdx hentry
      rw [List.length_replicate]
      omega
    rw [index_of_lt (show 0 < [List.replicate (rate + capacity) (1 : F)].length from Nat.one_pos), Except.ok_bind]
    simp only [List.getElem_cons_zero]
    rw [index_of_lt hlt, List.getElem_replicate]
    rfl
  have hrow : (incrementing F rate capacity).applyArc state 0 = .ok (state.map (· + 1)) := by
    refine (Except.mapM_eq_map hkeys).trans (congrArg Except.ok ?_)
    show state.zipIdx.map ((· + 1) ∘ Prod.fst) = _
    rw [← List.map_map, List.zipIdx_map_fst]
  rw [permute, hrow]
  rfl

theorem RescueConfig.incrementing_total : (incrementing F rate capacity).duplex.Total := fun state hs =>
  ⟨state.map (· + 1), incrementing_permute hs, by rw [List.length_map]; exact hs⟩

/-- Reading on into the next block differs from reading the block again. -/
theorem RescueConfig.incrementing_not_repeat [Nontrivial F] (hr : 0 < rate) {c c' : Cursor F}
    (hc : c.Valid (incrementing F rate capacity).duplex) (h0 : c.index ≠ 0) {output : List F}
    (h : (incrementing F rate capacity).duplex.squeezeMany rate c = .ok (output, c')) :
    output ≠ RescueSponge.repeated (incrementing F rate capacity).duplex c := by
  have hl : c.block.length = capacity + rate := hc.length_block
  have hle : c.index ≤ rate := hc.index_le
  rw [Duplex.squeezeMany_next hr hc.index_le (show rate < c.index + rate by omega),
    show (incrementing F rate capacity).duplex.permute c.block = .ok (c.block.map (· + 1)) from
      incrementing_permute hl, Except.ok_bind,
    show rate - ((incrementing F rate capacity).duplex.rate - c.index) = c.index from
      show rate - (rate - c.index) = c.index by omega,
    Duplex.squeezeMany_block (show 0 + c.index ≤ rate by omega)] at h
  obtain ⟨hout, -⟩ := Prod.ext_iff.mp (Except.ok.inj h)
  intro heq
  have htail : ((c.block.map (· + 1)).drop capacity).take c.index = (c.block.drop capacity).take c.index :=
    (List.append_right_inj _).mp (hout.trans heq)
  have hget := congrArg (·[0]?) htail
  have hlt : capacity < c.block.length := by omega
  simp only [List.getElem?_take, List.getElem?_drop, List.getElem?_map, Nat.pos_of_ne_zero h0, if_true,
    Nat.add_zero, List.getElem?_eq_getElem hlt, Option.map_some, Option.some.injEq] at hget
  exact one_ne_zero (left_eq_add.mp hget.symm)

end

namespace RescueSponge

variable {V : Type} {D : Duplex Outcome V}

/-- Every mode of a sponge is reached, over a permutation that succeeds. -/
theorem exists_reachable [AddMonoid V] (hD : D.Total) (hr : 0 < D.rate) {mode : DuplexSpongeMode}
    (hm : mode.index ≤ D.rate) : ∃ s, Reachable D s ∧ s.mode = mode := by
  have hnew := new_valid (V := V) D
  cases mode with
  | absorbing i =>
    by_cases hi : i = 0
    · exact ⟨_, .new, by rw [hi]; rfl⟩
    · have hne : List.replicate i (0 : V) ≠ [] := fun h => hi (by simpa using h)
      have hlen : (List.replicate i (0 : V)).length = i := List.length_replicate
      have h := absorb_eq hD.keepsWidth hr hnew hne
      rw [show absorbCursor D (DuplexSponge.new D) = ⟨List.replicate (D.rate + D.capacity) (0 : V), 0⟩ from rfl,
        Duplex.absorbAll_block (by rw [hlen, Nat.zero_add]; exact hm)] at h
      exact ⟨_, .absorb .new h, by simp only [hlen, Nat.zero_add]; rfl⟩
  | squeezing i =>
    obtain ⟨block, hp, hbl⟩ := hD _ hnew.length_state
    have h := squeezeNativeFieldElements_eq (D := D) (DuplexSponge.new D) i
    rw [show (DuplexSponge.new D).squeezeCursor D = ⟨(DuplexSponge.new (V := V) D).state, D.rate⟩ from rfl,
      Duplex.turn_rate, hp] at h
    have hread := squeezeInternal_eq hD.keepsWidth hr (c := ⟨block, 0⟩) ⟨hbl, Nat.zero_le _⟩ hr (n := i) (.inl rfl)
    rw [Duplex.squeezeMany_block (by rw [Nat.zero_add]; exact hm)] at hread
    exact ⟨_, .squeeze .new (h.trans hread), by simp only [Nat.zero_add]⟩

/-- A squeeze returns as many elements as it is asked for. -/
theorem squeeze_spec (hD : D.KeepsWidth) (hr : 0 < D.rate) {s s' : DuplexSponge V} (hs : s.Valid D)
    {n : Nat} {output : List V} (h : squeezeNativeFieldElements D s n = .ok (output, s')) :
    s'.Valid D ∧ output.length = n := by
  obtain ⟨c, hturn, -⟩ := bind_eq_ok.mp ((squeezeNativeFieldElements_eq s n).symm.trans h)
  obtain ⟨hc, hlt, -⟩ := turn_squeezeCursor hD hr hs hturn
  by_cases hskip : Skips D.rate c.index n
  · rw [squeezeNativeFieldElements_of_skips hturn hc hskip] at h
    obtain ⟨rfl, rfl⟩ := Prod.mk.inj (Except.ok.inj h)
    rw [hskip.2]
    exact ⟨⟨hc.length_block, hc.index_le⟩, length_repeated hc⟩
  · rw [squeezeNativeFieldElements_of_not_skips hD hr hturn hc hlt hskip, Except.map_eq_ok] at h
    obtain ⟨⟨output', c'⟩, hmany, h⟩ := h
    obtain ⟨rfl, rfl⟩ := Prod.mk.inj h
    obtain ⟨hvalid, hlen, -⟩ := Duplex.squeezeMany_valid hD hr hc hmany
    exact ⟨⟨hvalid.length_block, hvalid.index_le⟩, hlen⟩

theorem squeeze_valid (hD : D.KeepsWidth) (hr : 0 < D.rate) {s s' : DuplexSponge V} (hs : s.Valid D)
    {n : Nat} {output : List V} (h : squeezeNativeFieldElements D s n = .ok (output, s')) : s'.Valid D :=
  (squeeze_spec hD hr hs h).1

theorem length_squeeze (hD : D.KeepsWidth) (hr : 0 < D.rate) {s s' : DuplexSponge V} (hs : s.Valid D)
    {n : Nat} {output : List V} (h : squeezeNativeFieldElements D s n = .ok (output, s')) : output.length = n :=
  (squeeze_spec hD hr hs h).2

theorem absorbCursor_valid {s : DuplexSponge V} (hs : s.Valid D) : (absorbCursor D s).Valid D := by
  obtain ⟨state, mode⟩ := s
  cases mode with
  | absorbing i => exact ⟨hs.length_state, hs.index_le⟩
  | squeezing i => exact ⟨hs.length_state, le_refl D.rate⟩

theorem absorb_valid [Add V] (hD : D.KeepsWidth) (hr : 0 < D.rate) {s s' : DuplexSponge V} (hs : s.Valid D)
    {elems : List V} (h : absorb D s elems = .ok s') : s'.Valid D := by
  by_cases hne : elems = []
  · rw [hne] at h
    rwa [← Except.ok.inj h]
  rw [absorb_eq hD hr hs hne, Except.map_eq_ok] at h
  obtain ⟨c, hc, rfl⟩ := h
  obtain ⟨hl, hle⟩ := Duplex.absorbAll_valid hD hr (absorbCursor_valid hs) hc
  exact ⟨hl, hle⟩

/-- Two inputs in a row are absorbed as one. -/
theorem absorb_append [Add V] (hD : D.KeepsWidth) (hr : 0 < D.rate) {s : DuplexSponge V} (hs : s.Valid D)
    (a b : List V) : (absorb D s a >>= fun s => absorb D s b) = absorb D s (a ++ b) :=
  absorb_append_of_cursor hD hr (fun _ => rfl) (fun _ => rfl) (fun _ => absorbCursor_valid)
    (fun _ hs _ hne => absorb_eq hD hr hs hne) hs a b

/-- Neither call fails where the permutation does not. -/
theorem exists_absorb [Add V] (hD : D.Total) (hr : 0 < D.rate) {s : DuplexSponge V} (hs : s.Valid D)
    (elems : List V) : ∃ s', absorb D s elems = .ok s' := by
  by_cases hne : elems = []
  · exact ⟨s, by rw [hne]; rfl⟩
  · obtain ⟨c, hc, -⟩ := Duplex.exists_absorbAll hD hr (absorbCursor_valid hs) elems
    exact ⟨absorbed c, by rw [absorb_eq hD.keepsWidth hr hs hne, hc]; rfl⟩

theorem exists_squeeze (hD : D.Total) (hr : 0 < D.rate) {s : DuplexSponge V} (hs : s.Valid D) (n : Nat) :
    ∃ r, squeezeNativeFieldElements D s n = .ok r := by
  obtain ⟨c, hturn⟩ := Duplex.exists_turn hD hs.squeezeCursor
  obtain ⟨hc, hlt, -⟩ := turn_squeezeCursor hD.keepsWidth hr hs hturn
  by_cases hskip : Skips D.rate c.index n
  · exact ⟨_, squeezeNativeFieldElements_of_skips hturn hc hskip⟩
  · obtain ⟨r, hmany⟩ := Duplex.exists_squeezeMany hD hr hc n
    exact ⟨squeezed r, by rw [squeezeNativeFieldElements_of_not_skips hD.keepsWidth hr hturn hc hlt hskip, hmany]; rfl⟩

theorem Reachable.valid [Add V] [Zero V] (hD : D.KeepsWidth) (hr : 0 < D.rate) {s : DuplexSponge V}
    (h : Reachable D s) : s.Valid D := by
  induction h with
  | new => exact new_valid D
  | absorb _ h ih => exact absorb_valid hD hr ih h
  | squeeze _ h ih => exact squeeze_valid hD hr ih h

/-! ## Requests that split -/

theorem squeezeNativeFieldElements_of_squeezeMany (hD : D.KeepsWidth) (hr : 0 < D.rate) {s : DuplexSponge V}
    {c : Cursor V} (hturn : D.turn (s.squeezeCursor D) = .ok c) (hc : c.Valid D) (hlt : c.index < D.rate) {n : Nat}
    (hn : ¬ Skips D.rate c.index n) {r : List V × Cursor V} (hmany : D.squeezeMany n c = .ok r) :
    squeezeNativeFieldElements D s n = .ok (squeezed r) := by
  rw [squeezeNativeFieldElements_of_not_skips hD hr hturn hc hlt hn, hmany]
  rfl

theorem exists_squeezeMany_append (hD : D.Total) (hr : 0 < D.rate) {c : Cursor V} (hc : c.Valid D) (a b : Nat) :
    ∃ first second c' c'', D.squeezeMany a c = .ok (first, c') ∧ D.squeezeMany b c' = .ok (second, c'') ∧
      D.squeezeMany (a + b) c = .ok (first ++ second, c'') := by
  obtain ⟨⟨first, c'⟩, hfirst⟩ := Duplex.exists_squeezeMany hD hr hc a
  obtain ⟨hc', -, -⟩ := Duplex.squeezeMany_valid hD.keepsWidth hr hc hfirst
  obtain ⟨⟨second, c''⟩, hsecond⟩ := Duplex.exists_squeezeMany hD hr hc' b
  refine ⟨first, second, c', c'', hfirst, hsecond, ?_⟩
  rw [Duplex.squeezeMany_add, hfirst, Except.ok_bind, hsecond]
  rfl

/-- What the two requests and the only one return, where they agree. -/
theorem append_of_squeezeTwice_eq {s : DuplexSponge V} {a b : Nat}
    (h : squeezeTwice D s a b = squeezeNativeFieldElements D s (a + b)) {r₁ r₂ r : List V × DuplexSponge V}
    (h₁ : squeezeNativeFieldElements D s a = .ok r₁) (h₂ : squeezeNativeFieldElements D r₁.2 b = .ok r₂)
    (hab : squeezeNativeFieldElements D s (a + b) = .ok r) : r₁.1 ++ r₂.1 = r.1 := by
  rw [squeezeTwice_of_eq_ok h₁ h₂, hab] at h
  exact congrArg Prod.fst (Except.ok.inj h)

section

variable (hD : D.Total) (hr : 0 < D.rate)
  (hrep : ∀ (c c' : Cursor V) (output : List V), c.Valid D → c.index ≠ 0 →
    D.squeezeMany D.rate c = .ok (output, c') → output ≠ repeated D c)
  {s : DuplexSponge V} {c : Cursor V} (hturn : D.turn (s.squeezeCursor D) = .ok c) (hc : c.Valid D)
  (hlt : c.index < D.rate) {a b : Nat} (ha : a ≠ 0) (hb : 1 ≤ b)
  (h : squeezeTwice D s a b = squeezeNativeFieldElements D s (a + b))

include hD hr hrep hturn hc hlt h

include hb in
/-- The first request does not repeat the block. -/
theorem not_skips_first : ¬ Skips D.rate c.index a := fun hfirst => by
  have hab : ¬ Skips D.rate c.index (a + b) := fun h => by
    have := hfirst.2
    have := h.2
    omega
  obtain ⟨first, second, c', c'', hmany, -, hboth⟩ := exists_squeezeMany_append hD hr hc a b
  obtain ⟨-, hlen, -⟩ := Duplex.squeezeMany_valid hD.keepsWidth hr hc hmany
  obtain ⟨r₂, hr₂⟩ := exists_squeeze hD hr (s := (squeezed (repeated D c, c)).2) ⟨hc.length_block, hc.index_le⟩ b
  have hout := append_of_squeezeTwice_eq h (squeezeNativeFieldElements_of_skips hturn hc hfirst) hr₂
    (squeezeNativeFieldElements_of_squeezeMany hD.keepsWidth hr hturn hc hlt hab hboth)
  rw [hfirst.2] at hmany hlen
  exact hrep c c' first hc hfirst.1 hmany (List.append_inj_left hout ((length_repeated hc).trans hlen.symm)).symm

include ha hb in
/-- Nor does the second one, after a first one that does not. -/
theorem not_skips_second (hfirst : ¬ Skips D.rate c.index a) : ¬ Skips D.rate ((c.index + a) % D.rate) b := by
  obtain ⟨first, second, c', c'', hmany, hmany', hboth⟩ := exists_squeezeMany_append hD hr hc a b
  obtain ⟨hc', -, hi'⟩ := Duplex.squeezeMany_valid hD.keepsWidth hr hc hmany
  obtain ⟨c₂, hturn'⟩ := Duplex.exists_turn hD hc'
  obtain ⟨hl₂, hlt₂, hi₂⟩ := Duplex.turn_valid hD.keepsWidth hr hc' hturn'
  have hc₂ : c₂.Valid D := ⟨hl₂, hlt₂.le⟩
  have hcursor : D.turn ((squeezed (first, c')).2.squeezeCursor D) = .ok c₂ := hturn'
  rw [Duplex.squeezeMany_turn hr _ hb, hturn', Except.ok_bind] at hmany'
  rw [← hi', ← hi₂]
  intro hsecond
  have hab : ¬ Skips D.rate c.index (a + b) := fun h => by
    have := hsecond.2
    have := h.2
    omega
  have hout := append_of_squeezeTwice_eq h
    (squeezeNativeFieldElements_of_squeezeMany hD.keepsWidth hr hturn hc hlt hfirst hmany)
    (squeezeNativeFieldElements_of_skips hcursor hc₂ hsecond)
    (squeezeNativeFieldElements_of_squeezeMany hD.keepsWidth hr hturn hc hlt hab hboth)
  rw [hsecond.2] at hmany'
  exact hrep c₂ c'' second hc₂ hsecond.1 hmany' (List.append_cancel_left hout).symm

include hb in
/-- Nor does the only one, where neither of the two does. -/
theorem not_skips_both (hfirst : ¬ Skips D.rate c.index a) (hsecond : ¬ Skips D.rate ((c.index + a) % D.rate) b) :
    ¬ Skips D.rate c.index (a + b) := fun hab => by
  obtain ⟨first, second, c', c'', -, -, hboth⟩ := exists_squeezeMany_append hD hr hc a b
  have htwice := squeezeTwice_of_not_skips hD.keepsWidth hr hturn hc hlt hb hfirst hsecond
  rw [h, hboth, squeezeNativeFieldElements_of_skips hturn hc hab] at htwice
  rw [hab.2] at hboth
  exact hrep c c'' _ hc hab.1 hboth (congrArg Prod.fst (Except.ok.inj htwice)).symm

end

/-- Where a request omits a permutation, and the next block differs from the one
read again, the two requests return other outputs than the one. -/
theorem splitsAt_of_eq (hD : D.Total) (hr : 0 < D.rate)
    (hrep : ∀ (c c' : Cursor V) (output : List V), c.Valid D → c.index ≠ 0 →
      D.squeezeMany D.rate c = .ok (output, c') → output ≠ repeated D c)
    {s : DuplexSponge V} (hs : s.Valid D) {a b : Nat} (hb : 1 ≤ b)
    (h : squeezeTwice D s a b = squeezeNativeFieldElements D s (a + b)) : SplitsAt D.rate s.mode a b := by
  obtain ⟨c, hturn⟩ := Duplex.exists_turn hD hs.squeezeCursor
  obtain ⟨hc, hlt, hi⟩ := turn_squeezeCursor hD.keepsWidth hr hs hturn
  rw [SplitsAt, ← hi]
  by_cases ha : a = 0
  · exact .inl ha
  · have hfirst := not_skips_first hD hr hrep hturn hc hlt hb h
    have hsecond := not_skips_second hD hr hrep hturn hc hlt ha hb h hfirst
    exact .inr ⟨hfirst, hsecond, not_skips_both hD hr hrep hturn hc hlt hb h hfirst hsecond⟩

/-- Over the parameters of one rate and capacity, and the sponges in one mode that calls
lead to, two requests are as good as one exactly where none omits a permutation. -/
theorem squeezeTwice_eq_iff {F : Type} [CommRing F] [Nontrivial F] (rate capacity : Nat)
    (mode : DuplexSpongeMode) (a b : Nat) (hrate : 1 ≤ rate) (hmode : mode.index ≤ rate) (hb : 1 ≤ b) :
    (∀ config : RescueConfig F, config.rate = rate → config.capacity = capacity →
      ∀ s : DuplexSponge F, Reachable config.duplex s → s.mode = mode →
        squeezeTwice config.duplex s a b = squeezeNativeFieldElements config.duplex s (a + b)) ↔
      SplitsAt rate mode a b := by
  constructor
  · intro h
    have hD : (RescueConfig.incrementing F rate capacity).duplex.Total := RescueConfig.incrementing_total
    obtain ⟨s, hs, hm⟩ := exists_reachable hD hrate hmode
    have := splitsAt_of_eq hD hrate (fun c c' output hc h0 => RescueConfig.incrementing_not_repeat hrate hc h0)
      (hs.valid hD.keepsWidth hrate) hb (h _ rfl rfl s hs hm)
    rwa [hm] at this
  · intro h config hr _ s hs hm
    subst hr hm
    exact squeezeTwice_eq config.permute_keepsWidth hrate
      (hs.valid config.permute_keepsWidth hrate) hb h

theorem squeezeTwice_eq_iff_two :
    (∀ config : RescueConfig (ZMod 5), config.rate = 2 → config.capacity = 1 →
      ∀ s : DuplexSponge (ZMod 5), Reachable config.duplex s → s.mode = .squeezing 1 →
        squeezeTwice config.duplex s 1 2 = squeezeNativeFieldElements config.duplex s (1 + 2)) ↔
      SplitsAt 2 (.squeezing 1) 1 2 :=
  have : Fact (Nat.Prime 5) := ⟨by decide⟩
  squeezeTwice_eq_iff 2 1 (.squeezing 1) 1 2 (by decide) (by decide) (by decide)

/-- A new sponge asked for one element and then for two. -/
theorem squeezeTwice_ne :
    Reachable (RescueConfig.incrementing (ZMod 5) 2 1).duplex (.new (RescueConfig.incrementing (ZMod 5) 2 1).duplex) ∧
      RescueConfig.new 0 1 1 (RescueConfig.incrementing (ZMod 5) 2 1).mds
        (RescueConfig.incrementing (ZMod 5) 2 1).arc 2 1 = .ok (RescueConfig.incrementing (ZMod 5) 2 1) ∧
      squeezeTwice (RescueConfig.incrementing (ZMod 5) 2 1).duplex
          (.new (RescueConfig.incrementing (ZMod 5) 2 1).duplex) 1 2 ≠
        squeezeNativeFieldElements (RescueConfig.incrementing (ZMod 5) 2 1).duplex
          (.new (RescueConfig.incrementing (ZMod 5) 2 1).duplex) (1 + 2) :=
  ⟨.new, rfl, fun h => by
    have := congrArg (fun r => r.map Prod.fst) h
    revert this
    decide⟩

end RescueSponge

end CryptoPrimitives.Sponge
