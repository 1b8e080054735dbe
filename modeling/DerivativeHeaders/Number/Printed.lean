import DerivativeHeaders.Number.Decimal

/-! # Literals of constant channels

A constant is kept at the precision it is printed with. -/
namespace DerivativeHeaders

def constantPlaces : Nat := 6

/-- What the number reads back as after printing at `constantPlaces`, zero without a sign. -/
def Binary64.asPrinted : Binary64 → Binary64
  | .nan => .nan
  | .infinite negative => .infinite negative
  | .finite negative m =>
    let steps := m.scaled constantPlaces
    if steps = 0 then .zero
    else Decimal.nearest negative ⟨steps, -constantPlaces⟩

end DerivativeHeaders
