import Cry.Rust.Stream

/-!
# Commands

`std::process::Command` as data: the program, its arguments, and the variables that are set or
removed in the environment that the program inherits.

A text with a zero byte cannot be passed to a program; the system is not even asked then.
-/

namespace Rust

/-- The environment of a process. -/
abbrev Environ := String → Option Bytes

/-- A program to be run. -/
structure Command where
  /-- The program. -/
  program : String
  /-- The arguments, in order. -/
  args : List Bytes := []
  /-- The variables that are set or removed, the last change first. -/
  envs : List (String × Option Bytes) := []

/-- What a program that has run to its end leaves: whether it reports success, and what it has
printed. -/
structure Output where
  success : Bool
  stdout : Bytes := []
  stderr : Bytes := []

namespace Command

/-- `Command::arg`. -/
def arg (cmd : Command) (a : Bytes) : Command := { cmd with args := cmd.args ++ [a] }

/-- `Command::env`. -/
def env (cmd : Command) (key : String) (value : Bytes) : Command :=
  { cmd with envs := (key, some value) :: cmd.envs }

/-- `Command::env_remove`. -/
def envRemove (cmd : Command) (key : String) : Command :=
  { cmd with envs := (key, none) :: cmd.envs }

/-- A variable as the program sees it. -/
def getEnv (cmd : Command) (parent : Environ) (key : String) : Option Bytes :=
  (cmd.envs.lookup key).getD (parent key)

/-- An argument or a variable that was set contains a zero byte. -/
def sawNul (cmd : Command) : Bool :=
  cmd.args.any (·.contains 0) || cmd.envs.any fun e => (e.2.getD []).contains 0

/-- The error of a command whose texts contain a zero byte. -/
def nulError : IoError := .other 22

end Command

end Rust
