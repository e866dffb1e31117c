/-!
# The prelude

Support code at the top of every emitted program: the text of values, the arithmetic that rounds
towards negative infinity, and the operations on sequences.
-/

namespace Braces.Cpp

/-- The lines of the prelude. -/
def preludeLines : List String :=
  [
    "#include <bits/stdc++.h>",
    "using namespace std;",
    "",
    "string render_list(const vector<long long>& values) \x7b",
    "    string out = \"[\";",
    "    for (size_t i = 0; i < values.size(); i++) \x7b",
    "        if (i > 0) \x7b",
    "            out += \", \";",
    "        \x7d",
    "        out += to_string(values[i]);",
    "    \x7d",
    "    return out + \"]\";",
    "\x7d",
    "",
    "string py_str(const string& s) \x7b return s; \x7d",
    "string py_str(const char* s) \x7b return string(s); \x7d",
    "string py_str(char c) \x7b return string(1, c); \x7d",
    "string py_str(bool b) \x7b return b ? \"True\" : \"False\"; \x7d",
    "string py_str(int n) \x7b return to_string(n); \x7d",
    "string py_str(long n) \x7b return to_string(n); \x7d",
    "string py_str(long long n) \x7b return to_string(n); \x7d",
    "string py_str(double x) \x7b",
    "    if (std::isnan(x)) \x7b",
    "        return \"nan\";",
    "    \x7d",
    "    if (std::isinf(x)) \x7b",
    "        return x > 0 ? \"inf\" : \"-inf\";",
    "    \x7d",
    "    ostringstream out;",
    "    out << setprecision(15) << x;",
    "    string s = out.str();",
    "    if (s.find_first_of(\".e\") == string::npos) \x7b",
    "        s += \".0\";",
    "    \x7d",
    "    return s;",
    "\x7d",
    "string py_str(const vector<long long>& values) \x7b return render_list(values); \x7d",
    "",
    "long long py_floordiv(long long a, long long b) \x7b",
    "    if (b == 0) \x7b",
    "        throw domain_error(\"integer division or modulo by zero\");",
    "    \x7d",
    "    long long q = a / b;",
    "    if (a % b != 0 && (a < 0) != (b < 0)) \x7b",
    "        q -= 1;",
    "    \x7d",
    "    return q;",
    "\x7d",
    "",
    "long long py_mod(long long a, long long b) \x7b",
    "    if (b == 0) \x7b",
    "        throw domain_error(\"integer division or modulo by zero\");",
    "    \x7d",
    "    long long r = a % b;",
    "    if (r != 0 && (r < 0) != (b < 0)) \x7b",
    "        r += b;",
    "    \x7d",
    "    return r;",
    "\x7d",
    "",
    "double py_fmod(double a, double b) \x7b",
    "    double r = fmod(a, b);",
    "    if (r != 0 && (r < 0) != (b < 0)) \x7b",
    "        r += b;",
    "    \x7d",
    "    return r;",
    "\x7d",
    "",
    "bool py_truthy(const string& s) \x7b return !s.empty(); \x7d",
    "bool py_truthy(const vector<long long>& values) \x7b return !values.empty(); \x7d",
    "",
    "vector<long long> py_concat(const vector<long long>& a, const vector<long long>& b) \x7b",
    "    vector<long long> out = a;",
    "    out.insert(out.end(), b.begin(), b.end());",
    "    return out;",
    "\x7d",
    "",
    "vector<long long> py_repeat(const vector<long long>& values, long long n) \x7b",
    "    vector<long long> out;",
    "    for (long long i = 0; i < n; i++) \x7b",
    "        out.insert(out.end(), values.begin(), values.end());",
    "    \x7d",
    "    return out;",
    "\x7d",
    "",
    "string py_repeat(const string& s, long long n) \x7b",
    "    string out;",
    "    for (long long i = 0; i < n; i++) \x7b",
    "        out += s;",
    "    \x7d",
    "    return out;",
    "\x7d",
    "",
    "template <typename Seq>",
    "decltype(auto) py_index(Seq&& seq, long long i) \x7b",
    "    long long n = static_cast<long long>(seq.size());",
    "    if (i < 0) \x7b",
    "        i += n;",
    "    \x7d",
    "    if (i < 0 || i >= n) \x7b",
    "        throw out_of_range(\"index out of range\");",
    "    \x7d",
    "    return seq[i];",
    "\x7d",
    "",
    "long long py_step(long long step) \x7b",
    "    if (step == 0) \x7b",
    "        throw invalid_argument(\"range() arg 3 must not be zero\");",
    "    \x7d",
    "    return step;",
    "\x7d",
    "",
    "template <typename T>",
    "T& py_lvalue(T&& value) \x7b",
    "    return value;",
    "\x7d",
    "",
    "vector<long long> py_range(long long start, long long stop, long long step) \x7b",
    "    py_step(step);",
    "    vector<long long> out;",
    "    for (long long i = start; step > 0 ? i < stop : i > stop; i += step) \x7b",
    "        out.push_back(i);",
    "    \x7d",
    "    return out;",
    "\x7d"
  ]

def preludeText : String := String.join (preludeLines.map (· ++ "\n"))

end Braces.Cpp
