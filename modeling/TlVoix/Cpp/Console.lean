import TlVoix.Lib.Arr

/-!
# `console.h`: conversions between the host and UTF-8

`HostToUTF8` and `UTF8ToHost`, as they are compiled for Windows: the host has one octet for each
character. Both read a text up to its null octet, and end the result with a null octet after every
character that they write. Arrays are of octets; a null pointer is `none`.
-/

namespace TlVoix

open Checked

/-- The state of the loops of the conversions; `c` is the octet `s[i]` that the next test reads. -/
structure Conversion where
  i : ℕ
  j : ℕ
  c : UInt8
  resultat : Arr ℕ UInt8

/-- The test of the loops: `s[i] != 0`. -/
def Conversion.encore (p : Conversion) : Bool := p.c != 0

/-- The body of the loop of `HostToUTF8`, and the read that its next test makes. -/
def hostToUTF8.step (s : Arr ℕ UInt8) (p : Conversion) : Run Conversion := do
  let si ← s.get p.i
  let (j, resultat) ←
    if si.toNat < 1 <<< 7 then do
      let resultat ← p.resultat.set p.j si
      let resultat ← resultat.set (p.j + 1) 0
      pure (p.j + 1, resultat)
    else do
      let c := si.toNat &&& 0x00FF
      let resultat ← p.resultat.set p.j (UInt8.ofNat (0xC0 + ((c >>> 6) &&& 0x1F)))
      let resultat ← resultat.set (p.j + 1) (UInt8.ofNat (0x80 + (c &&& 0x3F)))
      let resultat ← resultat.set (p.j + 2) 0
      pure (p.j + 2, resultat)
  let i := p.i + 1
  let c ← s.get i
  pure { i, j, c, resultat }

/-- The body of the loop of `UTF8ToHost`, and the read that its next test makes. -/
def utf8ToHost.step (s : Arr ℕ UInt8) (p : Conversion) : Run Conversion := do
  let si ← s.get p.i
  let (i, resultat) ←
    if si.toNat < 1 <<< 7 then do
      let resultat ← p.resultat.set p.j si
      let resultat ← resultat.set (p.j + 1) 0
      pure (p.i, resultat)
    else do
      -- the second octet is read only after a leading one
      let deux ←
        if si.toNat &&& 0xE0 = 0xC0 then do
          pure (decide ((← s.get (p.i + 1)).toNat &&& 0xC0 = 0x80))
        else pure false
      if deux then do
        let suivant ← s.get (p.i + 1)
        let r := ((si.toNat &&& 0x1F) <<< 6) + (suivant.toNat &&& 0x3F)
        let resultat ←
          if r < 256 ∧ r ≥ 128 then do
            let resultat ← p.resultat.set p.j (UInt8.ofNat r)
            resultat.set (p.j + 1) 0
          else do
            let resultat ← p.resultat.set p.j 63
            resultat.set (p.j + 1) 0
        pure (if suivant ≠ 0 then p.i + 1 else p.i, resultat)
      else do
        let resultat ← p.resultat.set p.j 63
        let resultat ← resultat.set (p.j + 1) 0
        pure (p.i, resultat)
  let j := p.j + 1
  let i := i + 1
  let c ← s.get i
  pure { i, j, c, resultat }

/-- The loop that both conversions are, for at most `fuel` iterations. -/
def conversion (step : Arr ℕ UInt8 → Conversion → Run Conversion) (fuel : ℕ)
    (s resultat : Option (Arr ℕ UInt8)) : Run (Option (Arr ℕ UInt8)) :=
  match s, resultat with
  | some s, some resultat => do
    let resultat ← resultat.set 0 0
    let c ← s.get 0
    let p ← whileLoop Conversion.encore (step s) fuel { i := 0, j := 0, c, resultat }
    pure (some p.resultat)
  | _, resultat => pure resultat

/-- `HostToUTF8`; returns the array `resultat`. -/
def hostToUTF8 : ℕ → Option (Arr ℕ UInt8) → Option (Arr ℕ UInt8) → Run (Option (Arr ℕ UInt8)) :=
  conversion hostToUTF8.step

/-- `UTF8ToHost`; returns the array `resultat`. -/
def utf8ToHost : ℕ → Option (Arr ℕ UInt8) → Option (Arr ℕ UInt8) → Run (Option (Arr ℕ UInt8)) :=
  conversion utf8ToHost.step

end TlVoix
