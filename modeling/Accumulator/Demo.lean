/-
The demo programs.

A demo is a program for which labels are drawn from an allocator, so that several demos made
one after another from one allocator have different labels.
-/
import Accumulator.Program

namespace Accumulator

/-- A demo program, built with labels from an allocator. -/
structure Demo where
  name : String
  description : String
  build : Allocator → Program × Allocator

namespace Demo

/-- A price with 19% tax, in whole units. -/
def price (labels : Allocator) : Program × Allocator :=
  ({ data := ["prixHt", "prixTtc"]
     fragments :=
      [.bind "prixHt" (.number 200),
       .bind "prixTtc" (.binary .mul (.var "prixHt") (.number 119)),
       .bind "prixTtc" (.binary .div (.var "prixTtc") (.number 100))] },
   labels)

def positive : Node := .binary .gt (.var "b") (.number 0)

/-- One step of Euclid's algorithm on the words `a` and `b`: the remainder is saved before `a`
and `b` are overwritten, in this order. -/
def euclidStep : Node :=
  .binary .add
    (.bind "aux" (.binary .mod (.var "a") (.var "b")))
    (.binary .add (.bind "a" (.var "b")) (.bind "b" (.var "aux")))

/-- Euclid's algorithm on the words `a` and `b`, as a loop. -/
def euclid (labels : Allocator) : Node × Allocator :=
  Node.drawLoop labels positive (.bind "loop_body" euclidStep)

def gcdLoop (labels : Allocator) : Program × Allocator :=
  let (loop, labels) := euclid labels
  let program : Program :=
    { fragments := [.bind "a" (.var "input"), .bind "b" (.var "input"), loop] }
  (program.inferData, labels)

/-- The greatest common divisor of two inputs, by a lambda that runs the loop only if the second
input is positive.  A loop has the value zero, so adding `a` to it gives the result. -/
def gcdConditional (labels : Allocator) : Program × Allocator :=
  let (loop, labels) := euclid labels
  let (body, labels) :=
    Node.drawBranch labels positive (.binary .add loop (.var "a")) (.var "a")
  let program : Program :=
    { fragments :=
        [.bind "x" (.var "input"), .bind "y" (.var "input"),
         .bind "a" (.var "x"), .bind "b" (.var "y"),
         .bind "pgcd" (.lambda "a" "b" body)] }
  (program.inferData, labels)

/-- All demos, in their standing order. -/
def all : List Demo :=
  [{ name := "price", description := "price including 19% tax", build := price },
   { name := "gcd-loop", description := "greatest common divisor with a while loop",
     build := gcdLoop },
   { name := "gcd-conditional",
     description := "greatest common divisor behind a conditional and a lambda",
     build := gcdConditional }]

def find? (name : String) : Option Demo :=
  all.find? fun demo => demo.name = name

end Demo

end Accumulator
