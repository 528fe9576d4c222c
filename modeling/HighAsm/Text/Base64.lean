import HighAsm.Text

/-!
# Bytes in base 64

Three bytes are written as four digits of six bits each. When one or two bytes are left over, the
digits that would only hold missing bits are written as `=`.
-/

namespace HighAsm.Text

def sixBits (n : Nat) : UInt8 :=
  let n := n % 64
  if n < 26 then UInt8.ofNat (65 + n)
  else if n < 52 then UInt8.ofNat (97 + n - 26)
  else if n < 62 then UInt8.ofNat (48 + n - 52)
  else if n = 62 then 43
  else 47

def base64 : List UInt8 → Text
  | [] => []
  | [a] =>
    let n := a.toNat * 65536
    [sixBits (n / 262144), sixBits (n / 4096), 61, 61]
  | [a, b] =>
    let n := a.toNat * 65536 + b.toNat * 256
    [sixBits (n / 262144), sixBits (n / 4096), sixBits (n / 64), 61]
  | a :: b :: c :: rest =>
    let n := a.toNat * 65536 + b.toNat * 256 + c.toNat
    sixBits (n / 262144) :: sixBits (n / 4096) :: sixBits (n / 64) :: sixBits n :: base64 rest

end HighAsm.Text
