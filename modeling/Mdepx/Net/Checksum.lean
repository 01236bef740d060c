import Mdepx.Net.Mbuf

namespace Mdepx.Net
open Mdepx.Lib

def shortOf (cfg : Config) (b₀ b₁ : UInt8) : Nat :=
  if cfg.bigEndian then 256 * b₀.toNat + b₁.toNat else b₀.toNat + 256 * b₁.toNat

def shortBytes (cfg : Config) (v : Nat) : List UInt8 :=
  if cfg.bigEndian then [UInt8.ofNat (v / 256), UInt8.ofNat v]
  else [UInt8.ofNat v, UInt8.ofNat (v / 256)]

theorem shortBytes_length (cfg : Config) (v : Nat) : (shortBytes cfg v).length = 2 := by
  unfold shortBytes
  split <;> rfl

def sumShorts (cfg : Config) : List UInt8 → Nat
  | b₀ :: b₁ :: bs => shortOf cfg b₀ b₁ + sumShorts cfg bs
  | _ => 0

/-- `REDUCE`: the two halves are added, with the carry. -/
def reduce (sum : Nat) : Nat :=
  let sum := sum % 2 ^ 16 + sum / 2 ^ 16 % 2 ^ 16
  if 65535 < sum then sum - 65535 else sum

def toInt (v : Nat) : Int := Int.bmod v (2 ^ 32)

structure Cksum where
  w : Nat
  len : Int
  mlen : Int
  sum : Nat
  swapped : Bool
  c₀ : UInt8

namespace Cksum

/-- The first byte of an mbuf completes a word whose other half ended the one before. -/
def spanWord (cfg : Config) (mLen : Nat) (a : Cksum) : NetM Cksum := do
  if a.mlen = -1 then
    let c₁ ← readByte a.w
    return { a with
      sum := a.sum + shortOf cfg a.c₀ c₁
      w := a.w + 1
      mlen := toInt mLen - 1
      len := a.len - 1 }
  else
    return { a with mlen := toInt mLen }

def clip (a : Cksum) : Cksum :=
  let mlen := if a.len < a.mlen then a.len else a.mlen
  { a with mlen := mlen, len := a.len - mlen }

def toEven (cfg : Config) (a : Cksum) : NetM Cksum := do
  if (cfg.address + a.w) % 2 = 1 ∧ 0 < a.mlen then
    let c ← readByte a.w
    return { a with
      sum := reduce a.sum * 256
      c₀ := c
      w := a.w + 1
      mlen := a.mlen - 1
      swapped := true }
  else
    return a

/-- `while ((mlen -= 2 * k) >= 0)` over a body that adds `k` words. -/
def addWords (cfg : Config) (k : Nat) : Nat → Cksum → NetM Cksum
  | 0, a => return { a with mlen := a.mlen - 2 * k }
  | rounds + 1, a => do
    if 0 ≤ a.mlen - 2 * k then
      let bs ← readBytes a.w (2 * k)
      addWords cfg k rounds { a with
        sum := a.sum + sumShorts cfg bs
        w := a.w + 2 * k
        mlen := a.mlen - 2 * k }
    else
      return { a with mlen := a.mlen - 2 * k }

def addAll (cfg : Config) (k : Nat) (a : Cksum) : NetM Cksum := addWords cfg k a.mlen.toNat a

def finish (cfg : Config) (a : Cksum) : NetM Cksum := do
  if a.mlen = 0 ∧ a.swapped = false then
    return a
  else
    let a ← addAll cfg 1 { a with sum := reduce a.sum }
    if a.swapped then
      let sum := reduce a.sum * 256
      if a.mlen = -1 then
        let c₁ ← readByte a.w
        return { a with sum := sum + shortOf cfg a.c₀ c₁, mlen := 0, swapped := false }
      else
        return { a with sum := sum, mlen := -1, swapped := false }
    else if a.mlen = -1 then
      let c ← readByte a.w
      return { a with c₀ := c }
    else
      return a

def mbuf (cfg : Config) (mData mLen : Nat) (a : Cksum) : NetM Cksum := do
  if mLen = 0 then
    return a
  else
    let a ← spanWord cfg mLen { a with w := mData }
    let a ← toEven cfg a.clip
    let a ← addAll cfg 16 a
    let a ← addAll cfg 4 { a with mlen := a.mlen + 32 }
    finish cfg { a with mlen := a.mlen + 8 }

def chain (cfg : Config) : List (Nat × Nat) → Cksum → NetM Cksum
  | [], a => return a
  | (mData, mLen) :: ms, a => do
    if a.len = 0 then
      return a
    else
      let a ← mbuf cfg mData mLen a
      chain cfg ms a

/-- The complement of the sum, with the odd byte at the end of the chain. -/
def result (cfg : Config) (a : Cksum) : Nat :=
  let sum := if a.mlen = -1 then a.sum + shortOf cfg a.c₀ 0 else a.sum
  (65535 - reduce sum % 2 ^ 16) % 2 ^ 16

end Cksum

def inCksumChain (cfg : Config) (ms : List (Nat × Nat)) (len : Int) : NetM Nat := do
  let a ← Cksum.chain cfg ms ⟨0, len, 0, 0, false, 0⟩
  return a.result cfg

def inCksum (cfg : Config) (len : Int) : NetM Nat := fun s =>
  inCksumChain cfg [(s.mData, s.mLen)] len s

end Mdepx.Net
