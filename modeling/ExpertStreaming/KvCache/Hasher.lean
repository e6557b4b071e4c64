import ExpertStreaming.Lib.Fallible
import Mathlib.Data.BitVec

/-! # The rolling hash of the PLE rows

`qwen4exp_ple_hasher` mixes a token with the two before it since the last end of stream, in
unsigned 64-bit words, and reads the mix as a signed one: the row of a head is the head's offset
plus the floor remainder by the head's size.
-/
namespace ExpertStreaming.KvCache
open Lib

structure HashConfig where
  eosTokenId : BitVec 32
  layerMultipliers : Fin 3 → BitVec 64
  headVocabSizes : Fin 16 → BitVec 64
  headOffsets : Fin 16 → BitVec 64

/-- `qwen4exp_ple_hasher`; `history_size_` is the length of the history. -/
structure Hasher where
  config : HashConfig
  history : List (BitVec 32) := []

namespace Hasher

def make (config : HashConfig) : Except String Hasher :=
  if ∃ head, config.headVocabSizes head = 0 then
    .error "qwen4exp PLE head vocabulary size must be nonzero"
  else .ok { config }

def signedRemainder (valueBits divisor : BitVec 64) : BitVec 64 :=
  let remainder := valueBits % divisor
  if valueBits ≤ BitVec.intMax 64 then remainder
  else
    let twoTo64Mod := (BitVec.allOnes 64 % divisor + 1) % divisor
    if twoTo64Mod ≤ remainder then remainder - twoTo64Mod
    else remainder + (divisor - twoTo64Mod)

variable (hasher : Hasher) (token : BitVec 32) (head : Fin 16)

def previous : BitVec 32 := hasher.history.getLast?.getD hasher.config.eosTokenId

def previous2 : BitVec 32 :=
  if hasher.history.length < 2 then hasher.config.eosTokenId
  else hasher.history.headD hasher.config.eosTokenId

def bigram : BitVec 64 :=
  token.setWidth 64 * hasher.config.layerMultipliers 0 ^^^
    hasher.previous.setWidth 64 * hasher.config.layerMultipliers 1

def trigram : BitVec 64 :=
  hasher.bigram token ^^^ hasher.previous2.setWidth 64 * hasher.config.layerMultipliers 2

def mixed : BitVec 64 := if head < 8 then hasher.bigram token else hasher.trigram token

def next : Hasher :=
  { hasher with
    history :=
      if token = hasher.config.eosTokenId then []
      else (if hasher.history.length = 2 then hasher.history.drop 1 else hasher.history) ++ [token] }

def accept : (Fin 16 → BitVec 64) × Hasher :=
  (fun head => hasher.config.headOffsets head +
    signedRemainder (hasher.mixed token head) (hasher.config.headVocabSizes head),
   hasher.next token)

def replay (stream : List (BitVec 32)) : Hasher := stream.foldl next hasher

/-! ## The signed remainder -/

theorem twoTo64_mod {d : BitVec 64} (hd : 0 < d.toNat) :
    ((BitVec.allOnes 64 % d + 1) % d).toNat = 2 ^ 64 % d.toNat := by
  have hlt := Nat.mod_lt (2 ^ 64 - 1) hd
  have hsum : (2 ^ 64 - 1) % d.toNat + 1 < 2 ^ 64 := by
    have := d.isLt
    omega
  have hones : (BitVec.allOnes 64 % d + 1).toNat = (2 ^ 64 - 1) % d.toNat + 1 := by
    rw [BitVec.toNat_add, BitVec.toNat_umod, BitVec.toNat_allOnes]
    exact Nat.mod_eq_of_lt hsum
  rw [BitVec.toNat_umod, hones, Nat.mod_add_mod, Nat.sub_add_cancel Nat.one_le_two_pow]

/-- **The signed remainder** is the floor remainder of the value read in two's complement. -/
theorem toNat_signedRemainder (v : BitVec 64) {d : BitVec 64} (hd : d ≠ 0) :
    ((signedRemainder v d).toNat : Int) = v.toInt % d.toNat := by
  have hpos : 0 < d.toNat := Nat.pos_of_ne_zero fun h => hd (BitVec.eq_of_toNat_eq h)
  have hsize := d.isLt
  have hrem := Nat.mod_lt v.toNat hpos
  have hword := Nat.mod_lt (2 ^ 64) hpos
  unfold signedRemainder
  dsimp only
  split
  next hle =>
    have hle : v.toNat ≤ 2 ^ 63 - 1 := hle
    rw [BitVec.toNat_umod, BitVec.toInt_eq_toNat_of_lt (by omega)]
    rfl
  next hgt =>
  have hgt : 2 ^ 63 - 1 < v.toNat := Nat.lt_of_not_le hgt
  have hsigned : v.toInt = (v.toNat : Int) - (2 ^ 64 : Nat) := by
    rw [BitVec.toInt_eq_toNat_cond, if_neg (by omega)]
  rw [hsigned, Int.sub_emod, ← Int.natCast_emod, ← Int.natCast_emod, ← twoTo64_mod hpos,
    ← BitVec.toNat_umod]
  rw [← twoTo64_mod hpos] at hword
  rw [← BitVec.toNat_umod] at hrem
  generalize (BitVec.allOnes 64 % d + 1) % d = two at *
  generalize v % d = r at *
  -- the sums stay below the divisor, so none of them wraps
  split
  next hle =>
    rw [Int.emod_eq_of_lt] <;> bv_omega
  next hlt =>
    rw [← Int.add_emod_right, Int.emod_eq_of_lt] <;> bv_omega

/-! ## The reference -/

def int64Mul (a b : Int) : Int := (a * b).bmod (2 ^ 64)

def int64Xor (a b : Int) : Int := (BitVec.ofInt 64 a ^^^ BitVec.ofInt 64 b).toInt

/-- The tokens since the last end of the stream, the latest first. -/
def sinceEos (config : HashConfig) (stream : List (BitVec 32)) : List (BitVec 32) :=
  stream.reverse.takeWhile (· ≠ config.eosTokenId)

/-- The mix of a token after a stream, read off the stream alone. -/
def referenceMix (config : HashConfig) (stream : List (BitVec 32)) : Int :=
  let before := sinceEos config stream
  let product (token : BitVec 32) (i : Fin 3) : Int :=
    int64Mul token.toNat (config.layerMultipliers i).toInt
  let bigram := int64Xor (product token 0) (product (before.getD 0 config.eosTokenId) 1)
  if head < 8 then bigram else int64Xor bigram (product (before.getD 1 config.eosTokenId) 2)

theorem toInt_product (m : BitVec 64) :
    (token.setWidth 64 * m).toInt = int64Mul token.toNat m.toInt := by
  have htoken : (token.setWidth 64).toInt = token.toNat := by
    have := token.isLt
    rw [BitVec.toInt_eq_toNat_of_lt] <;> simp <;> omega
  rw [BitVec.toInt_mul, htoken]
  rfl

theorem replay_config (stream : List (BitVec 32)) :
    (hasher.replay stream).config = hasher.config := by
  induction stream generalizing hasher with
  | nil => rfl
  | cons token rest ih => exact ih (hasher.next token)

/-- The history holds the last two tokens since the last end of the stream, the latest last. -/
theorem replay_history (config : HashConfig) (stream : List (BitVec 32)) :
    (replay { config } stream).history = ((sinceEos config stream).take 2).reverse := by
  induction stream using List.reverseRecOn with
  | nil => rfl
  | append_singleton rest token ih =>
    have hnext : replay { config } (rest ++ [token]) = (replay { config } rest).next token :=
      List.foldl_append
    rw [hnext, next, replay_config, ih, sinceEos, sinceEos, List.reverse_append,
      List.reverse_singleton, List.singleton_append, List.takeWhile_cons]
    by_cases heos : token = config.eosTokenId
    · simp [heos]
    -- the window slides: of three tokens since the last end the oldest is dropped
    · rcases rest.reverse.takeWhile _ with _ | ⟨a, _ | ⟨b, older⟩⟩ <;> simp [heos]

theorem toInt_mixed (config : HashConfig) (stream : List (BitVec 32)) :
    ((replay { config } stream).mixed token head).toInt = referenceMix token head config stream := by
  have hconfig := replay_config { config } stream
  have hhistory := replay_history config stream
  generalize replay { config } stream = state at *
  have hprevious : state.previous = (sinceEos config stream).getD 0 config.eosTokenId := by
    rw [previous, hhistory, hconfig]
    rcases sinceEos config stream with _ | ⟨a, _ | ⟨b, older⟩⟩ <;> rfl
  have hprevious2 : state.previous2 = (sinceEos config stream).getD 1 config.eosTokenId := by
    rw [previous2, hhistory, hconfig]
    rcases sinceEos config stream with _ | ⟨a, _ | ⟨b, older⟩⟩ <;> simp
  unfold mixed referenceMix trigram bigram int64Xor
  simp only [← toInt_product, BitVec.ofInt_toInt, hprevious, hprevious2, hconfig]
  split <;> rfl

/-- **The rows of a token**: after any stream, the row of a head is its offset plus the floor
remainder of the mix that the signed reference reads off the stream. -/
theorem ple_rows_are_floor_remainders {config fresh} (hmake : make config = .ok fresh)
    (stream : List (BitVec 32))
    (hfits : (config.headOffsets head).toNat + (config.headVocabSizes head).toNat < 2 ^ 64) :
    let state := fresh.replay stream
    let row := ((state.accept token).1 head).toNat
    let offset := (config.headOffsets head).toNat
    let size := (config.headVocabSizes head).toNat
    (row : Int) = offset + (state.mixed token head).toInt % size ∧
      offset ≤ row ∧ row < offset + size ∧
      (row : Int) = offset + referenceMix token head config stream % size := by
  intro state row offset size
  unfold make at hmake
  split at hmake
  · cases hmake
  next hsizes =>
  cases hmake
  have hconfig : state.config = config := replay_config _ stream
  have hsize : config.headVocabSizes head ≠ 0 := fun h => hsizes ⟨head, h⟩
  have hrem : _ = (state.mixed token head).toInt % size := toNat_signedRemainder _ hsize
  have hpos : (0 : Int) < size := by bv_omega
  have hnonneg := Int.emod_nonneg (state.mixed token head).toInt hpos.ne'
  have hlt := Int.emod_lt_of_pos (state.mixed token head).toInt hpos
  have hrow : row = offset + (signedRemainder (state.mixed token head)
      (config.headVocabSizes head)).toNat := by
    show (state.config.headOffsets head + _).toNat = _
    rw [hconfig, BitVec.toNat_add, Nat.mod_eq_of_lt (by omega)]
  have href : (state.mixed token head).toInt = referenceMix token head config stream :=
    toInt_mixed token head config stream
  rw [← href]
  omega

def widestConfig : HashConfig where
  eosTokenId := 7
  layerMultipliers := fun i => BitVec.ofNat 64 (2 ^ 63 + 2 * i + 1)
  headVocabSizes := fun _ => BitVec.allOnes 64
  headOffsets := fun _ => 0

theorem widest_ple_rows :
    let state : Hasher := replay { config := widestConfig } [4, 7, 3, 5]
    (state.mixed 9 8).toInt < 0 ∧
      (((state.accept 9).1 8).toNat : Int) =
        0 + referenceMix 9 8 widestConfig [4, 7, 3, 5] % (2 ^ 64 - 1 : Nat) ∧
      sinceEos widestConfig [4, 7, 3, 5] = [5, 3] :=
  ⟨by decide,
    (ple_rows_are_floor_remainders 9 8 (show make widestConfig = _ from rfl) [4, 7, 3, 5]
      (by decide)).2.2.2, by decide⟩

end Hasher

end ExpertStreaming.KvCache
