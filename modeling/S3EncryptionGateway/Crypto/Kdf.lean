import S3EncryptionGateway.Library.Encoding

/-!
# Key derivation

An engine derives the key of an object from its password, the object's salt and the
parameters stored with the object.  The parameters are checked twice: against fixed
bounds of each algorithm and against the ceilings of the engine, which keep a stored
object from making the gateway work too hard.

The two derivation functions are parameters of the development.
-/

namespace S3EncryptionGateway.Crypto

open Encoding

inductive KdfAlgorithm where
  | pbkdf2Sha256
  | argon2id
  | other (name : String)
  deriving DecidableEq

structure KdfParams where
  algorithm : KdfAlgorithm
  iterations : ℤ
  time : ℕ
  /-- In KiB. -/
  memory : ℕ
  threads : ℕ

/-- Operational ceilings. -/
structure KdfLimits where
  pbkdf2MaxIterations : ℤ
  argon2idMaxTime : ℕ
  argon2idMaxMemory : ℕ
  argon2idMaxThreads : ℕ

inductive KdfError where
  | invalid (algorithm : KdfAlgorithm) (parameter : String) (value : ℕ) (reason : String)
  | costTooHigh (algorithm : KdfAlgorithm) (parameter : String) (requested maximum : ℕ)
  | saltSize (actual : ℕ)
  | pbkdf2 (reason : String)

def minPbkdf2Iterations : ℤ := 100000
def maxPbkdf2Iterations : ℤ := 2000000
def defaultPbkdf2Iterations : ℤ := 600000
def maxArgon2idTime : ℕ := 10
def maxArgon2idMemory : ℕ := 1048576
def maxArgon2idThreads : ℕ := 255

def defaultKdfLimits : KdfLimits where
  pbkdf2MaxIterations := maxPbkdf2Iterations
  argon2idMaxTime := maxArgon2idTime
  argon2idMaxMemory := 65536
  argon2idMaxThreads := maxArgon2idThreads

def defaultKdfParams (iterations : ℤ) : KdfParams where
  algorithm := .pbkdf2Sha256
  iterations := if iterations < minPbkdf2Iterations then defaultPbkdf2Iterations else iterations
  time := 0
  memory := 0
  threads := 0

/-- The fixed bounds of a parameter of argon2id, which all begin at one. -/
def checkArgon2id (parameter : String) (value maximum : ℕ) (reason : String) :
    Except KdfError Unit :=
  if value < 1 ∨ maximum < value then .error (.invalid .argon2id parameter value reason)
  else .ok ()

def checkCost (algorithm : KdfAlgorithm) (parameter : String) (value maximum : ℕ) :
    Except KdfError Unit :=
  if maximum < value then .error (.costTooHigh algorithm parameter value maximum) else .ok ()

def validateKdfParams (params : KdfParams) (limits : KdfLimits) : Except KdfError Unit :=
  match params.algorithm with
  | .pbkdf2Sha256 =>
    if params.iterations < minPbkdf2Iterations ∨ maxPbkdf2Iterations < params.iterations then
      .error (.invalid .pbkdf2Sha256 "iterations" params.iterations.toNat
        "must be between 100000 and 2000000")
    else if limits.pbkdf2MaxIterations ≤ 0 then
      .error (.invalid .pbkdf2Sha256 "max_iterations" 0
        ("must be positive (got " ++ toString limits.pbkdf2MaxIterations ++ ")"))
    else
      checkCost .pbkdf2Sha256 "iterations" params.iterations.toNat
        limits.pbkdf2MaxIterations.toNat
  | .argon2id => do
      checkArgon2id "time" params.time maxArgon2idTime "must be between 1 and 10"
      checkArgon2id "memory" params.memory maxArgon2idMemory "must be between 1 and 1048576"
      checkArgon2id "threads" params.threads maxArgon2idThreads "must be between 1 and 255"
      checkCost .argon2id "time" params.time limits.argon2idMaxTime
      checkCost .argon2id "memory" params.memory limits.argon2idMaxMemory
      checkCost .argon2id "threads" params.threads limits.argon2idMaxThreads
  | .other name => .error (.invalid (.other name) "algorithm" 0 "unsupported algorithm")

/-- The derivation functions: password, salt, and the cost parameters. -/
structure KdfFunctions where
  pbkdf2 : Bytes → Bytes → ℤ → ℕ → Except String Bytes
  argon2id : Bytes → Bytes → ℕ → ℕ → ℕ → ℕ → Bytes

def aesKeySize : ℕ := 32
def saltSize : ℕ := 32

def deriveKeyArgon2id (kdf : KdfFunctions) (password salt : Bytes) (params : KdfParams) :
    Except KdfError Bytes := do
  validateKdfParams params defaultKdfLimits
  return kdf.argon2id password salt params.time params.memory params.threads aesKeySize

def deriveKeyWithParams (kdf : KdfFunctions) (limits : KdfLimits) (password salt : Bytes)
    (params : KdfParams) : Except KdfError Bytes :=
  if salt.length ≠ saltSize then .error (.saltSize salt.length)
  else do
    validateKdfParams params limits
    if params.algorithm = .argon2id then deriveKeyArgon2id kdf password salt params
    else
      match kdf.pbkdf2 password salt params.iterations aesKeySize with
      | .ok key => .ok key
      | .error reason => .error (.pbkdf2 ("failed to derive key with PBKDF2: " ++ reason))

end S3EncryptionGateway.Crypto
