import CryptoPrimitives.Crh.PedersenGadget
import CryptoPrimitives.Framework.Combination
import Mathlib.Data.ZMod.Basic

/-!
# What the Pedersen hash binds

The windows of an input are the digits of a number, with one point for each: the hash combines these points
(`evaluate_eq_combine`). So it has no collision among inputs of full length exactly when they have no relation with
small coefficients (`evaluate_injective_iff`).
-/

namespace CryptoPrimitives.Pedersen

open Combination (DifferencesBelow Independent combine)
open Digits (limb ofBits)

section

variable {C : Type} [AddCommGroup C]

/-- The point that the generators of a window are powers of. -/
def windowPoint (generators : List (List C)) (i : Nat) : C := (generators.getD i []).headD 0

theorem windowPoint_mem {H : AddSubgroup C} {generators : List (List C)}
    (h : ∀ powers ∈ generators, ∀ g ∈ powers, g ∈ H) (i : Nat) : windowPoint generators i ∈ H := by
  rw [windowPoint, List.getD_eq_getElem?_getD]
  cases hi : generators[i]? with
  | none => exact H.zero_mem
  | some powers =>
    cases powers with
    | nil => exact H.zero_mem
    | cons base powers => exact h _ (List.mem_of_getElem? hi) base List.mem_cons_self

/-- The generators of each window are powers of a point. -/
def Powers (W : Window) (generators : List (List C)) : Prop :=
  ∀ powers ∈ generators, ∃ base, powers = doublings W.windowSize base

theorem CRH.powers_createGenerators {R : Type} (rand : R → C × R) (W : Window) (rng : R) :
    Powers W (CRH.createGenerators rand W.windowSize W.numWindows rng).1 :=
  forall_mem_createGenerators (fun rng => ⟨(rand rng).1, rfl⟩) W.numWindows rng

/-- The windows of some bits, with the number of each as the coefficient of its point. -/
theorem selectedSum_flatten {W : Window} (hw : 0 < W.windowSize) {generators : List (List C)}
    (hp : Powers W generators) (bits : List Bool) : selectedSum bits generators.flatten =
      ∑ i : Fin generators.length, limb W.windowSize (ofBits bits) i • windowPoint generators i := by
  induction generators generalizing bits with
  | nil => simp [selectedSum]
  | cons powers generators ih =>
    obtain ⟨⟨base, rfl⟩, hgenerators⟩ := List.forall_mem_cons.mp hp
    have hbase : windowPoint (doublings W.windowSize base :: generators) 0 = base := by
      obtain ⟨n, hn⟩ : ∃ n, W.windowSize = n + 1 := ⟨W.windowSize - 1, by omega⟩
      rw [windowPoint, List.getD_cons_zero, hn]
      rfl
    rw [List.flatten_cons, selectedSum_append, length_doublings, ih hgenerators, Digits.ofBits_drop, selectedSum_doublings,
      List.take_take, Nat.min_self, Digits.ofBits_take]
    refine (congrArg₂ (· + ·) ?_ (Finset.sum_congr rfl fun i _ => ?_)).trans (Fin.sum_univ_succ _).symm
    · rw [Fin.val_zero, hbase, Digits.limb_zero_right]
    · rw [Fin.val_succ, Digits.limb_succ]
      rfl

/-- The inputs that fill all windows. -/
abbrev FullInput (W : Window) : Type := {input : List UInt8 // input.length * 8 = W.inputSizeBits}

/-- The numbers of their windows. -/
def FullInput.windows {W : Window} (input : FullInput W) (i : Fin W.numWindows) : Nat :=
  limb W.windowSize (leNumber input.val) i

theorem FullInput.leNumber_lt {W : Window} (input : FullInput W) :
    leNumber input.val < 2 ^ (W.windowSize * W.numWindows) := by
  rw [show W.windowSize * W.numWindows = 8 * input.val.length from input.property.symm.trans (Nat.mul_comm _ _), pow_mul]
  exact CryptoPrimitives.leNumber_lt input.val

/-- An input is determined by the numbers of its windows. -/
theorem FullInput.windows_injective {W : Window} : Function.Injective (FullInput.windows (W := W)) := by
  intro x y h
  have hnumber : leNumber x.val = leNumber y.val :=
    Digits.limb_inj x.leNumber_lt y.leNumber_lt fun k hk => congrFun h ⟨k, hk⟩
  have hlength : x.val.length = y.val.length := by
    have := x.property.trans y.property.symm
    omega
  have hbytes (z : FullInput W) : toLeBytes z.val.length (leNumber z.val) = z.val := by
    rw [toLeBytes_leNumber le_rfl, Nat.sub_self, List.replicate_zero, List.append_nil]
  exact Subtype.ext (by rw [← hbytes x, ← hbytes y, hnumber, hlength])

/-- Where the windows are made of whole bytes, they may be any numbers of so many bits. -/
theorem FullInput.mem_range_windows {W : Window} (h8 : 8 ∣ W.inputSizeBits) (x : Fin W.numWindows → Nat) :
    x ∈ Set.range (FullInput.windows (W := W)) ↔ ∀ i, x i < 2 ^ W.windowSize := by
  refine ⟨fun ⟨input, hinput⟩ i => hinput ▸ Digits.limb_lt _ _ _, fun hx => ?_⟩
  obtain ⟨n, hn, hlimb⟩ := Digits.exists_limb_eq (fun k => if h : k < W.numWindows then x ⟨k, h⟩ else 0)
    fun k hk => by rw [dif_pos hk]; exact hx ⟨k, hk⟩
  obtain ⟨count, hcount⟩ := h8
  have hpow : 2 ^ (W.windowSize * W.numWindows) = 256 ^ count := by
    rw [← Window.inputSizeBits, hcount, pow_mul]
    rfl
  refine ⟨⟨toLeBytes count n, by rw [length_toLeBytes, hcount, Nat.mul_comm]⟩, funext fun i => ?_⟩
  rw [windows, leNumber_toLeBytes, Nat.mod_eq_of_lt (hpow ▸ hn), hlimb i i.isLt, dif_pos i.isLt]

theorem FullInput.differencesBelow {W : Window} (h8 : 8 ∣ W.inputSizeBits) :
    DifferencesBelow (fun _ => 2 ^ W.windowSize) fun (input : FullInput W) i => (input.windows i : Int) :=
  Combination.differencesBelow_natCast (mem_range_windows h8)

/-- The hash combines the points of the windows. -/
theorem CRH.evaluate_eq_combine {W : Window} (hw : 0 < W.windowSize) {parameters : Parameters C}
    (hm : parameters.Matches W) (hp : Powers W parameters.generators) (input : FullInput W) :
    CRH.evaluate W parameters input.val = .ok
      (combine (fun i : Fin W.numWindows => windowPoint parameters.generators i) fun i => input.windows i) := by
  rw [evaluate_eq hm hw input.property.le, selectedSum_flatten hw hp, bytesToBits_eq, ofBits_flatten_byteBits]
  refine congrArg Except.ok ?_
  simp only [combine, FullInput.windows, natCast_zsmul]
  rw [Fin.sum_univ_eq_sum_range
      fun i => limb W.windowSize (leNumber input.val) i • windowPoint parameters.generators i,
    Fin.sum_univ_eq_sum_range
      fun i => limb W.windowSize (leNumber input.val) i • windowPoint parameters.generators i, hm.length_eq]

/-- For every setup with windows of whole bytes: no two full inputs have the same hash exactly when the points have no
relation whose coefficients are below the powers of the windows. -/
theorem CRH.evaluate_injective_iff {W : Window} (hw : 0 < W.windowSize) (h8 : 8 ∣ W.inputSizeBits) {R : Type}
    {rand : R → C × R} {rng rng' : R} {parameters : Parameters C}
    (hsetup : CRH.setup rand W rng = .ok (parameters, rng')) :
    (∀ x y : FullInput W, CRH.evaluate W parameters x.val = CRH.evaluate W parameters y.val → x = y) ↔
      Independent (fun i : Fin W.numWindows => windowPoint parameters.generators i) fun _ => 2 ^ W.windowSize := by
  obtain ⟨rfl, -⟩ := Prod.mk.inj (Except.ok.inj hsetup)
  have hm := matches_createGenerators rand W rng
  have hp := powers_createGenerators rand W rng
  have hinj : Function.Injective fun (input : FullInput W) i => (input.windows i : Int) := fun x y h =>
    FullInput.windows_injective (funext fun i => Int.ofNat.inj (congrFun h i))
  rw [← Combination.injective_iff (FullInput.differencesBelow h8) hinj]
  refine forall₂_congr fun x y => imp_congr_left ?_
  rw [evaluate_eq_combine hw hm hp x, evaluate_eq_combine hw hm hp y, Except.ok.injEq]

end

/-- Two windows of 4 bits, with the points 1 and 16 of the integers modulo 257. -/
theorem CRH.evaluate_injective_iff_two :
    CRH.setup (fun n : Nat => (((16 ^ n : Nat) : ZMod 257), n + 1)) ⟨4, 2⟩ 0 =
        .ok (⟨[doublings 4 (1 : ZMod 257), doublings 4 16]⟩, 2) ∧
      ∀ x y : FullInput ⟨4, 2⟩,
        CRH.evaluate ⟨4, 2⟩ ⟨[doublings 4 (1 : ZMod 257), doublings 4 16]⟩ x.val =
          CRH.evaluate ⟨4, 2⟩ ⟨[doublings 4 (1 : ZMod 257), doublings 4 16]⟩ y.val → x = y := by
  have hsetup : CRH.setup (fun n : Nat => (((16 ^ n : Nat) : ZMod 257), n + 1)) ⟨4, 2⟩ 0 =
      .ok (⟨[doublings 4 (1 : ZMod 257), doublings 4 16]⟩, 2) := rfl
  refine ⟨hsetup, (evaluate_injective_iff (W := ⟨4, 2⟩) (by decide) (by decide) hsetup).mpr fun d hd => ?_⟩
  obtain ⟨hlt, hzero⟩ := hd
  rw [combine, Fin.sum_univ_two] at hzero
  have hcast : ((d 0 + d 1 * 16 : Int) : ZMod 257) = 0 := by
    rw [← hzero]
    push_cast
    rw [← zsmul_one, ← zsmul_eq_mul]
    rfl
  have hsmall (a b : Int) (ha : a.natAbs < 16) (hb : b.natAbs < 16) (h : (257 : Int) ∣ a + b * 16) : a = 0 ∧ b = 0 := by
    obtain ⟨k, hk⟩ := h
    obtain rfl : k = 0 := by omega
    omega
  have hdvd := (ZMod.intCast_zmod_eq_zero_iff_dvd _ 257).mp hcast
  exact funext (Fin.forall_fin_two.mpr (hsmall (d 0) (d 1) (hlt 0) (hlt 1) hdvd))

end CryptoPrimitives.Pedersen
