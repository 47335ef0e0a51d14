import Birokrasi.Random.Twister

/-!
# Sources of chance

Where a program gets its chances from: a generator, or a steady source that always gives the same
answers.
-/

namespace Birokrasi

inductive Source where
  | drawn (g : Twister)
  /-- Always a tenth, the middle, the least and the first. -/
  | steady

namespace Source

def unit : Source → Float × Source
  | .drawn g =>
    let (u, g) := g.unit
    (u, .drawn g)
  | .steady => (0.1, .steady)

def uniform (a b : Float) : Source → Float × Source
  | .drawn g =>
    let (x, g) := g.uniform a b
    (x, .drawn g)
  | .steady => ((a + b) / 2.0, .steady)

def between (low high : Int) : Source → Int × Source
  | .drawn g =>
    let (n, g) := g.between low high
    (n, .drawn g)
  | .steady => (low, .steady)

/-- One of the items of a list that is not empty, or else `default`. -/
def choice {α : Type} (default : α) (items : List α) : Source → α × Source
  | .drawn g =>
    let (a, g) := g.choice default items
    (a, .drawn g)
  | .steady => (items.headD default, .steady)

end Source

end Birokrasi
