import Mathlib.Data.List.Basic

/-!
# The configuration file

The fields of `config.json` that the PBFT process reads, and `ParseAddr`, which the PBFT
process, the coin node and the client each carry a copy of.
-/

namespace Ruccoin

/-- `atoi`: skip blanks, read a sign, then digits up to the first other character. A number
too large for a `long` becomes the largest there is, and only then is it cut to an `int`. -/
def atoi (text : List Char) : Int :=
  let digits (cs : List Char) : Nat := Nat.ofDigitChars 10 (cs.takeWhile Char.isDigit) 0
  let number : Int := match text.dropWhile Char.isWhitespace with
    | '-' :: rest => -(digits rest : Int)
    | '+' :: rest => digits rest
    | rest => digits rest
  if number < -9223372036854775808 then -9223372036854775808
  else if 9223372036854775807 < number then 9223372036854775807
  else number

/-- `ParseAddr`: the text before the first colon and the port behind it. Without a colon
`find` returns `npos`, and both `substr` calls take the whole address. -/
def parseAddr (addr : String) : String × Nat :=
  let ip := addr.toList.takeWhile (· ≠ ':')
  let port := match addr.toList.dropWhile (· ≠ ':') with
    | _ :: rest => rest
    | [] => addr.toList
  (String.ofList ip, (UInt32.ofInt (atoi port)).toNat)

/-- The keys under `conf_json[std::to_string(port)]`. -/
structure Account where
  addr : String
  privKey : String

structure Config where
  pbftPrimary : Nat
  nodeAddr : List String
  account : Nat → Account

namespace Config

/-- The number of configured replicas, `nodes_.size()`. -/
def n (conf : Config) : Nat := conf.nodeAddr.length

/-- `f_ = (nodes_.size() - 1) / 3`, for at least one replica. -/
def f (conf : Config) : Nat := (conf.n - 1) / 3

/-- The keys of the replica with the given index. -/
def keys (conf : Config) (id : Nat) : Account :=
  match conf.nodeAddr[id]? with
  | some addr => conf.account (parseAddr addr).2
  | none => ⟨"", ""⟩

/-- A quorum never needs more replicas than there are. -/
theorem quorum_le (conf : Config) (nonempty : 1 ≤ conf.n) : 2 * conf.f + 1 ≤ conf.n := by
  unfold f
  omega

end Config

/-- `n` local nodes on the ports from 18090 on, the first of them the primary. -/
def sampleConfig (n : Nat) : Config where
  pbftPrimary := 0
  nodeAddr := (List.range n).map fun i => "127.0.0.1:" ++ toString (18090 + i)
  account port := ⟨"04" ++ toString port, toString port⟩

end Ruccoin
