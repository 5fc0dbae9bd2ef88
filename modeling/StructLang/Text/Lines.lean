namespace StructLang.Text

def lines : List Char → List (List Char)
  | [] => []
  | '\n' :: rest => [] :: lines rest
  | '\r' :: '\n' :: rest => [] :: lines rest
  | c :: rest =>
    match lines rest with
    | [] => [[c]]
    | line :: others => (c :: line) :: others

def startsAfter (base : Nat) : List Char → List Nat
  | [] => []
  | c :: rest =>
    if c = '\n' then (base + 1) :: startsAfter (base + 1) rest else startsAfter (base + 1) rest

def lineStarts (cs : List Char) : List Nat := 0 :: startsAfter 0 cs

end StructLang.Text
