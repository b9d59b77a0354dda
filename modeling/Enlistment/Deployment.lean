import Enlistment.Identity

/-!
# Deployment

A message that refers to user classes can carry information that lets its receiver
find the class loader of the sender.
-/

namespace Enlistment

/-- How deployed classes are shared between nodes. -/
inductive DeploymentMode where
  | «private»
  | isolated
  | shared
  | continuous
  deriving DecidableEq, Repr

namespace DeploymentMode

/-- All modes in the order of their ordinals. -/
def all : List DeploymentMode := [«private», isolated, shared, continuous]

/-- The position of a mode. -/
def ordinal : DeploymentMode → Int8
  | «private» => 0
  | isolated => 1
  | shared => 2
  | continuous => 3

/-- The mode at a position, the shared mode at any other. -/
def ofOrdinal (n : Int8) : DeploymentMode :=
  all.find? (fun mode => mode.ordinal == n) |>.getD shared

/-- The name of a mode. -/
def name : DeploymentMode → String
  | «private» => "Private"
  | isolated => "Isolated"
  | shared => "Shared"
  | continuous => "Continuous"

end DeploymentMode

/-- Where the receiver of a message finds the sender's classes. -/
structure DeploymentInfo where
  loaderId : Uuid
  mode : DeploymentMode
  userVersion : String
  deriving DecidableEq, Repr

/-- The deployment info of an unknown loader. -/
def DeploymentInfo.blank : DeploymentInfo := ⟨0, .shared, ""⟩

end Enlistment
