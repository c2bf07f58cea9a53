/-! Sample programs. -/
namespace Terse

/-- Small programs that show the language, by title. -/
def samples : List (String × String) := [
  ("Hello world", "log('Hello World')\n"),
  ("Functions",
    "f addFive(x) => r + x * 5 _2;\n" ++
    "log(addFive(1))\n"),
  ("Repeat", "*.5: log('This will run 5 times');\n"),
  ("Else-if chain",
    "x = 5\n" ++
    "?x < 5: log('x is less than 5');\n" ++
    "!? x > 5: log('x is greater than 5');\n" ++
    "!: log('x is equal to 5');\n"),
  ("GCD",
    "f gcd(a, b) =>\n" ++
    "  ?a == b: r a;\n" ++
    "  !?a > b: r gcd(- a b, b);\n" ++
    "  !: r gcd(a, - b a);\n" ++
    ";\n" ++
    "log(gcd(48, 18))\n"),
  ("Factorial",
    "f factorial(n) =>\n" ++
    "  ?n == 0: r 1;\n" ++
    "  !: r * n factorial(- n 1);\n" ++
    ";\n" ++
    "log(factorial(5))\n" ++
    "log(5 F)\n"),
  ("Fibonacci",
    "f fibonacci(n) =>\n" ++
    "  ?n < 2: r n;\n" ++
    "  !: r + fibonacci(- n 1) fibonacci(- n 2);\n" ++
    ";\n" ++
    "log(fibonacci(10))\n"),
  ("Ranges",
    "i in 1,10: log(* i 10);\n" ++
    "s = 'hello'\n" ++
    "i in 0,#s: log(s[i]);\n" ++
    "k in 0,10,2: log(k);\n"),
  ("Arrays",
    "a = ['banana', 'cherry', 'apple']\n" ++
    "log(#a)   // prints 3\n" ++
    "log(a[0]) // prints banana\n" ++
    "fruit in a: log(fruit);\n"),
  ("Loops",
    "n = 0\n" ++
    "w n < 10:\n" ++
    "  n += 1\n" ++
    "  ?n == 5: br;\n" ++
    ";\n" ++
    "log(n)\n"),
  ("Dictionaries",
    "p = \x7bname: 'Ada', age: 36\x7d\n" ++
    "p.age = + p.age 1\n" ++
    "log(p?.name)\n" ++
    "log(p.age > 30 ? 'senior' ! 'junior')\n"),
  ("Exceptions",
    "t:\n" ++
    "  th 'boom'\n" ++
    "; e(err):\n" ++
    "  log(err)\n" ++
    ";\n")]

end Terse
