/-! The Bitcoin networks that a descriptor can be written for. -/
namespace OutputDescriptor

/-- Keys and legacy addresses tell only the main network from the test networks. -/
inductive NetworkKind
  | main
  | test
  deriving DecidableEq, Repr

inductive Network
  | bitcoin
  | testnet
  | regtest
  deriving DecidableEq, Repr

namespace Network

def kind : Network → NetworkKind
  | .bitcoin => .main
  | .testnet | .regtest => .test

def name : Network → String
  | .bitcoin => "bitcoin"
  | .testnet => "testnet"
  | .regtest => "regtest"

/-- Signet shares the parameters of the test network. Any other name, or none, is the main
network. -/
def ofName : Option String → Network
  | some "testnet" | some "signet" => .testnet
  | some "regtest" => .regtest
  | _ => .bitcoin

/-- The part of a witness address that stands before its separator. -/
def humanReadablePart : Network → List Char
  | .bitcoin => ['b', 'c']
  | .testnet => ['t', 'b']
  | .regtest => ['b', 'c', 'r', 't']

end Network

def NetworkKind.name : NetworkKind → String
  | .main => "main"
  | .test => "test"

end OutputDescriptor
